import RegMachine.Proofs.Cells
import RegMachine.Proofs.Faults

/-!
# Nested scopes as a machine

Scopes are nested like the blocks they are compiled for, and only the innermost
one is worked on. `Nest.perform` is this discipline as a machine: an operation
acts on the innermost scope, a fork puts a child inside it, and a sync folds the
innermost scope back into the one around it.

The cursor, the label counter and the labels of functions move between parent
and child on every fork and sync, and what a link does with the tables differs.
What is handed out is unique all the same, because there is one place at any time
where the counters are right: the innermost scope. Its counters are the *tally* of
all that has been handed out so far, whichever scope did it (`Nest.Tally`). One
operation keeps the tally (`Nest.Tally.perform`), and hence so does a run of them
(`Nest.handed_out_once`). Nothing needs to be known of the scopes further out: a
sync overwrites all counters of the scope that it goes back to.
-/

namespace RegMachine

variable {α : Type}

/-- A variable is bound last, when nothing can fail any more. -/
theorem CompileM.cautious_declareVariable {name : String} {v : Variable} {force : Bool}
    {line : Nat} :
    Cautious (if force then bindVariable name v else declare name v line) := by
  cases force with
  | true => exact .of_never fun _ _ _ h => bindVariable_eq_error_iff.mp h
  | false => exact .declare name v line

/-! ## The machine -/

/-- The scopes of nested blocks, the innermost apart from those around it. -/
structure Nest where
  innermost : Scope
  /-- The scopes around the innermost one, from the inside to the outside. -/
  around : List Scope
deriving DecidableEq

/-- What is left of a scope while a child of a link runs: a shared child takes the
tables out of it. -/
def Scope.lend (s : Scope) : Link → Scope
  | .shared => { s with symbols := .startingAt 0 0 }
  | _ => s

namespace Nest

/-- **What can be done with the innermost scope.** -/
inductive Op where
  | allocate (size line : Nat)
  | newLabel
  | claimLabel (label : String) (line : Nat)
  | warn
  /-- Bind a variable, by force or if its name may be bound. -/
  | declareVariable (name : String) (v : Variable) (force : Bool) (line : Nat)
  | declareFunction (f : Function)
  | declareNamespace (n : Namespace)
  /-- Put a child inside the innermost scope. -/
  | fork (link : Link)
  /-- Fold the innermost scope back into the one around it. -/
  | sync

/-- What an operation answers. -/
inductive Reply where
  | address (address : UInt32)
  | label (index : Nat)
  /-- The body of a scope that was folded back. -/
  | body (code : Fragment)
  | done
  | refused (e : CompileError)
deriving DecidableEq

/-- Run an action in the innermost scope. -/
def act (x : CompileM α) (reply : α → Reply) (n : Nest) : Reply × Nest :=
  match x n.innermost with
  | .ok a s => (reply a, { n with innermost := s })
  | .error e s => (.refused e, { n with innermost := s })

/-- **Perform an operation.** Only the outermost scope cannot be folded back. -/
def perform (n : Nest) : Op → Option (Reply × Nest)
  | .allocate size line => some (n.act (CompileM.allocate size line) .address)
  | .newLabel => some (n.act CompileM.newLabel .label)
  | .claimLabel label line => some (n.act (CompileM.claimLabel label line) fun _ => .done)
  | .warn => some (n.act CompileM.warn fun _ => .done)
  | .declareVariable name v force line =>
    some (n.act (if force then CompileM.bindVariable name v else CompileM.declare name v line)
      fun _ => .done)
  | .declareFunction f => some (n.act (CompileM.declareFunction f) fun _ => .done)
  | .declareNamespace space => some (n.act (CompileM.declareNamespace space) fun _ => .done)
  | .fork link =>
    some (.done, ⟨n.innermost.fork link, n.innermost.lend link :: n.around⟩)
  | .sync =>
    match n.around with
    | [] => none
    | parent :: rest => some (.body n.innermost.body, ⟨parent.sync n.innermost, rest⟩)

/-- **Perform operations one after the other**, and log each with its answer. -/
def run (n : Nest) : List Op → Option (List (Op × Reply) × Nest)
  | [] => some ([], n)
  | op :: ops => do
    let (reply, n') ← n.perform op
    let (log, last) ← n'.run ops
    return ((op, reply) :: log, last)

/-- **Whether operations are nested properly** when so many scopes are open around the
innermost one: no sync without a fork. -/
def disciplined : Nat → List Op → Bool
  | _, [] => true
  | depth, .fork _ :: ops => disciplined (depth + 1) ops
  | 0, .sync :: _ => false
  | depth + 1, .sync :: ops => disciplined depth ops
  | depth, _ :: ops => disciplined depth ops

/-! ## What has been handed out -/

/-- The bytes that were handed out. -/
def spansOf (log : List (Op × Reply)) : List Span :=
  log.filterMap fun
    | (.allocate size _, .address address) => some ⟨address, size⟩
    | _ => none

/-- The label indices that were taken. -/
def labelsOf (log : List (Op × Reply)) : List Nat :=
  log.filterMap fun
    | (.newLabel, .label index) => some index
    | _ => none

/-- The labels of functions that were claimed. -/
def claimsOf (log : List (Op × Reply)) : List String :=
  log.filterMap fun
    | (.claimLabel label _, .done) => some label
    | _ => none

end Nest

/-- **Spans tile the bytes from an address up to a cursor**, each starting where the one
before it ends. -/
inductive Tiles (low : UInt32) : List Span → UInt32 → Prop
  | nil : Tiles low [] low
  | snoc {spans : List Span} {cursor : UInt32} (h : Tiles low spans cursor) (size : Nat)
      (hroom : cursor.toNat + size < UInt32.size) :
      Tiles low (spans ++ [⟨cursor, size⟩]) (addressAfter cursor size)

namespace Tiles

variable {low cursor : UInt32} {spans : List Span}

theorem within (h : Tiles low spans cursor) :
    low ≤ cursor ∧ ∀ a ∈ spans, a.Within low cursor := by
  induction h with
  | nil => exact ⟨UInt32.le_refl _, nofun⟩
  | @snoc spans cursor h size hroom ih =>
    refine ⟨UInt32.le_trans ih.1 (le_addressAfter hroom), List.forall_mem_append.mpr ⟨?_, ?_⟩⟩
    · exact fun a ha => (ih.2 a ha).mono (UInt32.le_refl _) (le_addressAfter hroom)
    · refine List.forall_mem_singleton.mpr ?_
      exact (Span.within_addressAfter (a := ⟨cursor, size⟩) hroom).mono ih.1 (UInt32.le_refl _)

/-- **Tiles do not overlap.** -/
theorem pairwise_apart (h : Tiles low spans cursor) : spans.Pairwise Span.Apart := by
  induction h with
  | nil => exact .nil
  | @snoc spans cursor h size hroom ih =>
    refine List.pairwise_append.mpr ⟨ih, List.pairwise_singleton _ _, fun a ha b hb => ?_⟩
    obtain rfl := List.mem_singleton.mp hb
    exact (h.within.2 a ha).apart (Span.within_addressAfter (a := ⟨cursor, size⟩) hroom)

/-- **Tiles leave no gap**: a byte is in one of them if and only if it lies before the
cursor. -/
theorem exists_mem_iff (h : Tiles low spans cursor) (byte : Nat) :
    (∃ a ∈ spans, a.start.toNat ≤ byte ∧ byte < a.start.toNat + a.size)
      ↔ low.toNat ≤ byte ∧ byte < cursor.toNat := by
  induction h with
  | nil => simp
  | @snoc spans cursor h size hroom ih =>
    have hle : low.toNat ≤ cursor.toNat := UInt32.le_iff_toNat_le.mp h.within.1
    have hsplit :
        (∃ a ∈ spans ++ [⟨cursor, size⟩], a.start.toNat ≤ byte ∧ byte < a.start.toNat + a.size)
        ↔ (∃ a ∈ spans, a.start.toNat ≤ byte ∧ byte < a.start.toNat + a.size)
          ∨ cursor.toNat ≤ byte ∧ byte < cursor.toNat + size := by
      simp only [List.mem_append, List.mem_singleton, or_and_right, exists_or, exists_eq_left]
    rw [hsplit, ih, toNat_addressAfter hroom]
    omega

end Tiles

namespace Nest

variable {start : UInt32} {log : List (Op × Reply)} {s s' : Scope} {n n' : Nest} {op : Op}
  {reply : Reply}

theorem spansOf_append (log more : List (Op × Reply)) :
    spansOf (log ++ more) = spansOf log ++ spansOf more := List.filterMap_append

theorem labelsOf_append (log more : List (Op × Reply)) :
    labelsOf (log ++ more) = labelsOf log ++ labelsOf more := List.filterMap_append

theorem claimsOf_append (log more : List (Op × Reply)) :
    claimsOf (log ++ more) = claimsOf log ++ claimsOf more := List.filterMap_append

/-- An action either succeeds, or it is refused and has changed nothing. -/
theorem act_cases {x : CompileM α} (hx : x.Cautious) {answer : α → Reply}
    (h : n.act x answer = (reply, n')) :
    (∃ a s, x n.innermost = .ok a s ∧ answer a = reply ∧ { n with innermost := s } = n')
      ∨ ∃ e, reply = .refused e ∧ n' = n := by
  unfold act at h
  split at h
  next a s hs =>
    cases h
    exact .inl ⟨a, s, hs, rfl, rfl⟩
  next e s hs =>
    cases h
    rw [hx n.innermost e s hs]
    exact .inr ⟨e, rfl, rfl⟩

/-- **The tally of what was handed out**: the counters of a scope stand where all that
has been logged leaves them. -/
structure Tally (start : UInt32) (log : List (Op × Reply)) (s : Scope) : Prop where
  tiles : Tiles start (spansOf log) s.symbols.nextAddress
  labels : labelsOf log = List.range s.labels
  claims : claimsOf log = s.functionLabels
  nodup : s.functionLabels.Nodup

namespace Tally

theorem startingAt (config : Config) (nextAddress nextDataAddress : UInt32) :
    Tally nextAddress [] (Scope.startingAt config nextAddress nextDataAddress) :=
  ⟨.nil, rfl, rfl, .nil⟩

/-- What hands out nothing keeps the tally, as long as the counters stay. -/
theorem pass (h : Tally start log s) {entry : Op × Reply} (hspans : spansOf [entry] = [])
    (hlabels : labelsOf [entry] = []) (hclaims : claimsOf [entry] = [])
    (haddress : s'.symbols.nextAddress = s.symbols.nextAddress) (hcounter : s'.labels = s.labels)
    (hfunctions : s'.functionLabels = s.functionLabels) : Tally start (log ++ [entry]) s' where
  tiles := by
    rw [spansOf_append, hspans, List.append_nil, haddress]
    exact h.tiles
  labels := by
    rw [labelsOf_append, hlabels, List.append_nil, hcounter]
    exact h.labels
  claims := by
    rw [claimsOf_append, hclaims, List.append_nil, hfunctions]
    exact h.claims
  nodup := hfunctions ▸ h.nodup

theorem refused (h : Tally start log s) (op : Op) (e : CompileError) :
    Tally start (log ++ [(op, .refused e)]) s := by
  refine h.pass ?_ ?_ ?_ rfl rfl rfl <;> cases op <;> rfl

theorem allocate (h : Tally start log s) {size line : Nat} {address : UInt32}
    (hs : CompileM.allocate size line s = .ok address s') :
    Tally start (log ++ [(.allocate size line, .address address)]) s' := by
  obtain ⟨hroom, rfl, rfl⟩ := CompileM.allocate_eq_ok_iff.mp hs
  refine ⟨?_, ?_, ?_, h.nodup⟩
  · rw [spansOf_append]
    exact h.tiles.snoc size hroom
  · rw [labelsOf_append]
    exact (List.append_nil _).trans h.labels
  · rw [claimsOf_append]
    exact (List.append_nil _).trans h.claims

theorem newLabel (h : Tally start log s) :
    Tally start (log ++ [(.newLabel, .label s.labels)]) { s with labels := s.labels + 1 } := by
  refine ⟨?_, ?_, ?_, h.nodup⟩
  · rw [spansOf_append]
    exact (List.append_nil _).symm ▸ h.tiles
  · rw [labelsOf_append, h.labels]
    exact List.range_succ.symm
  · rw [claimsOf_append]
    exact (List.append_nil _).trans h.claims

theorem claimLabel (h : Tally start log s) {label : String} {line : Nat}
    (hs : CompileM.claimLabel label line s = .ok () s') :
    Tally start (log ++ [(.claimLabel label line, .done)]) s' := by
  obtain ⟨hnew, rfl⟩ := CompileM.claimLabel_eq_ok_iff.mp hs
  refine ⟨?_, ?_, ?_, ?_⟩
  · rw [spansOf_append]
    exact (List.append_nil _).symm ▸ h.tiles
  · rw [labelsOf_append]
    exact (List.append_nil _).trans h.labels
  · rw [claimsOf_append, h.claims]
    rfl
  · refine List.nodup_append.mpr ⟨h.nodup, List.pairwise_singleton _ _, fun a ha b hb hab => ?_⟩
    obtain rfl := List.mem_singleton.mp hb
    exact hnew (hab ▸ ha)

/-- **One operation keeps the tally**, whichever scopes it leads from and to. -/
theorem perform (h : Tally start log n.innermost) (hop : n.perform op = some (reply, n')) :
    Tally start (log ++ [(op, reply)]) n'.innermost := by
  cases op with
  | allocate size line =>
    obtain ⟨address, s', hs, rfl, rfl⟩ | ⟨e, rfl, rfl⟩ :=
      act_cases (CompileM.Cautious.allocate _ _) (Option.some.inj hop)
    · exact h.allocate hs
    · exact h.refused _ e
  | newLabel =>
    cases hop
    exact h.newLabel
  | claimLabel label line =>
    obtain ⟨_, s', hs, rfl, rfl⟩ | ⟨e, rfl, rfl⟩ :=
      act_cases (CompileM.Cautious.claimLabel _ _) (Option.some.inj hop)
    · exact h.claimLabel hs
    · exact h.refused _ e
  | warn | declareFunction | declareNamespace =>
    cases hop
    exact h.pass rfl rfl rfl rfl rfl rfl
  | declareVariable name v force line =>
    obtain ⟨_, s', hs, rfl, rfl⟩ | ⟨e, rfl, rfl⟩ :=
      act_cases CompileM.cautious_declareVariable (Option.some.inj hop)
    · have hbound :
          s' = { n.innermost with symbols := n.innermost.symbols.insertVariable name v } := by
        cases force with
        | true => exact (CompileM.bindVariable_eq_ok_iff.mp hs).symm
        | false => exact (CompileM.declare_eq_ok_iff.mp hs).2.symm
      subst hbound
      exact h.pass rfl rfl rfl rfl rfl rfl
    · exact h.refused _ e
  | fork link =>
    cases hop
    refine h.pass rfl rfl rfl ?_ rfl rfl
    cases link <;> rfl
  | sync =>
    obtain ⟨child, around⟩ := n
    cases around with
    | nil => exact nomatch hop
    | cons parent rest =>
      cases hop
      exact h.pass rfl rfl rfl (Scope.nextAddress_sync parent child) rfl rfl

/-- **A run keeps the tally**, through any forks and syncs. -/
theorem run (h : Tally start log n.innermost) {ops : List Op} {entries : List (Op × Reply)}
    (hrun : n.run ops = some (entries, n')) : Tally start (log ++ entries) n'.innermost := by
  induction ops generalizing n log entries with
  | nil =>
    cases hrun
    rw [List.append_nil]
    exact h
  | cons op ops ih =>
    obtain ⟨⟨reply, next⟩, hop, hrest⟩ := Option.bind_eq_some_iff.mp hrun
    obtain ⟨⟨more, last⟩, hmore, hlast⟩ := Option.bind_eq_some_iff.mp hrest
    cases hlast
    have hnext := ih (h.perform hop) hmore
    rw [List.append_assoc] at hnext
    exact hnext

end Tally

theorem around_act (x : CompileM α) (answer : α → Reply) (n : Nest) :
    (n.act x answer).2.around = n.around := by
  unfold act
  split <;> rfl

/-- An operation that is nested properly can be performed, and what follows it is still
nested properly. -/
theorem exists_perform {ops : List Op} (h : disciplined n.around.length (op :: ops) = true) :
    ∃ reply n', n.perform op = some (reply, n') ∧ disciplined n'.around.length ops = true := by
  have hact : ∀ {α : Type} (x : CompileM α) (answer : α → Reply),
      disciplined n.around.length ops = true →
      ∃ reply n', some (n.act x answer) = some (reply, n')
        ∧ disciplined n'.around.length ops = true := by
    intro α x answer hops
    refine ⟨(n.act x answer).1, (n.act x answer).2, rfl, ?_⟩
    rw [around_act]
    exact hops
  cases op with
  | fork link => exact ⟨_, _, rfl, h⟩
  | sync =>
    obtain ⟨child, around⟩ := n
    cases around with
    | nil => exact nomatch h
    | cons parent rest => exact ⟨_, _, rfl, h⟩
  | _ =>
    simp only [disciplined] at h
    exact hact _ _ h

/-- **Operations that are nested properly can all be performed.** -/
theorem exists_run {ops : List Op} (h : disciplined n.around.length ops = true) :
    ∃ log n', n.run ops = some (log, n') := by
  induction ops generalizing n with
  | nil => exact ⟨[], n, rfl⟩
  | cons op ops ih =>
    obtain ⟨reply, next, hop, hnext⟩ := exists_perform h
    obtain ⟨log, last, hlog⟩ := ih hnext
    refine ⟨(op, reply) :: log, last, ?_⟩
    rw [run, hop]
    show (next.run ops).bind _ = _
    rw [hlog]
    rfl

/-- **An operation that is refused has changed nothing.** -/
theorem eq_of_refused {e : CompileError} (h : n.perform op = some (.refused e, n')) : n' = n := by
  have hact : ∀ {α : Type} {x : CompileM α} {answer : α → Reply}, x.Cautious →
      (∀ a, answer a ≠ .refused e) → some (n.act x answer) = some (.refused e, n') → n' = n := by
    intro α x answer hx hanswer hop
    obtain ⟨a, _, _, hreply, _⟩ | ⟨_, _, heq⟩ := act_cases hx (Option.some.inj hop)
    · exact absurd hreply (hanswer a)
    · exact heq
  cases op with
  | allocate => exact hact (CompileM.Cautious.allocate _ _) (fun _ => Reply.noConfusion) h
  | claimLabel => exact hact (CompileM.Cautious.claimLabel _ _) (fun _ => Reply.noConfusion) h
  | declareVariable => exact hact CompileM.cautious_declareVariable (fun _ => Reply.noConfusion) h
  | newLabel | warn | declareFunction | declareNamespace | fork => exact nomatch h
  | sync =>
    obtain ⟨child, around⟩ := n
    cases around <;> exact nomatch h

/-- **What is handed out in nested scopes is handed out once.** Whatever operations are
performed on a fresh scope and the scopes that are forked from it, as long as they
are nested properly: the bytes that were handed out do not overlap and are all
the bytes from the start to the cursor of the innermost scope; the label indices
that were taken are those below its counter, each once; and no label of a function
was claimed twice. An operation that is refused changes nothing. -/
theorem handed_out_once (config : Config) (nextAddress nextDataAddress : UInt32) {ops : List Op}
    (h : disciplined 0 ops = true) :
    (∃ log n, run ⟨Scope.startingAt config nextAddress nextDataAddress, []⟩ ops = some (log, n)
      ∧ (spansOf log).Pairwise Span.Apart
      ∧ (∀ byte, (∃ a ∈ spansOf log, a.start.toNat ≤ byte ∧ byte < a.start.toNat + a.size)
        ↔ nextAddress.toNat ≤ byte ∧ byte < n.innermost.symbols.nextAddress.toNat)
      ∧ labelsOf log = List.range n.innermost.labels
      ∧ (claimsOf log).Nodup)
    ∧ ∀ (n n' : Nest) (op : Op) (e : CompileError),
      n.perform op = some (.refused e, n') → n' = n := by
  obtain ⟨log, n, hrun⟩ :=
    exists_run (n := ⟨Scope.startingAt config nextAddress nextDataAddress, []⟩) h
  have htally := (Tally.startingAt config nextAddress nextDataAddress).run hrun
  rw [List.nil_append] at htally
  refine ⟨⟨log, n, hrun, htally.tiles.pairwise_apart, htally.tiles.exists_mem_iff,
    htally.labels, ?_⟩, fun n n' op e => eq_of_refused⟩
  rw [htally.claims]
  exact htally.nodup

/-- Operations close to the end of the address space, through a shared and an isolated
child. One allocation finds no room and one label is claimed a second time. -/
def nearTheEnd : List Op :=
  [.allocate 4 1, .claimLabel "f" 2, .fork .shared, .newLabel, .allocate 16 3, .fork .isolated,
    .claimLabel "f" 4, .allocate 8 5, .newLabel, .sync, .sync, .newLabel, .allocate 3 6]

theorem handed_out_once_nearTheEnd :
    ∃ log n, run ⟨Scope.startingAt {} 0xFFFFFFF0 0, []⟩ nearTheEnd = some (log, n)
      ∧ (spansOf log).Pairwise Span.Apart
      ∧ spansOf log = [⟨0xFFFFFFF0, 4⟩, ⟨0xFFFFFFF4, 8⟩, ⟨0xFFFFFFFC, 3⟩]
      ∧ labelsOf log = List.range n.innermost.labels
      ∧ labelsOf log = [0, 1, 2]
      ∧ claimsOf log = ["f"] := by
  have hlogged : (run ⟨Scope.startingAt {} 0xFFFFFFF0 0, []⟩ nearTheEnd).map
      (fun r => (spansOf r.1, labelsOf r.1, claimsOf r.1))
      = some ([⟨0xFFFFFFF0, 4⟩, ⟨0xFFFFFFF4, 8⟩, ⟨0xFFFFFFFC, 3⟩], [0, 1, 2], ["f"]) := by
    decide +kernel
  obtain ⟨⟨log, n, hrun, hspans, -, hlabels, -⟩, -⟩ :=
    handed_out_once {} 0xFFFFFFF0 0 (show disciplined 0 nearTheEnd = true by decide)
  rw [hrun] at hlogged
  simp only [Option.map_some, Option.some.injEq, Prod.mk.injEq] at hlogged
  exact ⟨log, n, hrun, hspans, hlogged.1, hlabels, hlogged.2.1, hlogged.2.2⟩

end Nest

end RegMachine
