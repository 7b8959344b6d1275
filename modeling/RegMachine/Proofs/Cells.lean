import RegMachine.Program
import RegMachine.Proofs.Edits

/-!
# Cells do not overlap

Every variable that is not a list has a cell, and every function has one for
its return address. This module shows that in a compiled program no two of
them overlap (`Program.apart_of_compile`).

Cells are handed out by a cursor that blocks pass on to the blocks inside them
and take back. The argument keeps a *ledger* beside a run: the cells that were
handed out, each starting where the cursor stood. A ledger only grows, and by
its construction its cells lie apart (`Ledger.eq_or_apart`), so it is enough
that every table that is ever in sight is *backed* by the ledger, that is, has
its cells in it. `Symbols.Grows` says that a run from some symbols to others
keeps this up: a ledger that backs the former can be continued to one that
backs the latter. Functions are not asked to be backed when a run starts,
because the body of a function sees itself before its return cell exists; what
a run says about them is that those it adds are backed at its end.
-/

namespace RegMachine

variable {α : Type}

/-! ## Spans and cells -/

/-- A run of bytes from an address on. -/
structure Span where
  start : UInt32
  size : Nat
deriving DecidableEq

namespace Span

/-- **Two spans do not overlap**: one ends before the other starts. The ends
are numbers, so neither wraps around. -/
def Apart (a b : Span) : Prop :=
  a.start.toNat + a.size ≤ b.start.toNat ∨ b.start.toNat + b.size ≤ a.start.toNat

/-- A span lies between two addresses. -/
def Within (low high : UInt32) (a : Span) : Prop :=
  low.toNat ≤ a.start.toNat ∧ a.start.toNat + a.size ≤ high.toNat

variable {a b : Span} {low high : UInt32}

theorem Apart.symm (h : a.Apart b) : b.Apart a := Or.symm h

theorem Within.mono (h : a.Within low high) {low' high' : UInt32} (hlow : low' ≤ low)
    (hhigh : high ≤ high') : a.Within low' high' :=
  ⟨Nat.le_trans (UInt32.le_iff_toNat_le.mp hlow) h.1,
    Nat.le_trans h.2 (UInt32.le_iff_toNat_le.mp hhigh)⟩

theorem within_addressAfter (h : a.start.toNat + a.size < UInt32.size) :
    a.Within a.start (addressAfter a.start a.size) :=
  ⟨Nat.le_refl _, Nat.le_of_eq (toNat_addressAfter h).symm⟩

/-- What lies behind an address is apart from what lies before it. -/
theorem Within.apart {mid : UInt32} (ha : a.Within low mid) (hb : b.Within mid high) :
    a.Apart b :=
  .inl (Nat.le_trans ha.2 hb.1)

end Span

/-- The bytes of a variable and its elements: the cell of a scalar or pointer,
and all cells of a list. -/
def ValueType.extent : ValueType → Nat
  | list element len => len * element.size
  | type => type.size

/-- The bytes that callers write an argument to. -/
def Param.span (p : Param) : Span := ⟨p.address, p.type.extent⟩

/-- **A cell**, known by what owns it. -/
inductive Cell where
  | var (name : String) (type : ValueType) (address : UInt32)
  /-- The cell that a function saves its return address to. -/
  | returnSlot (function : String) (address : UInt32)
deriving DecidableEq

/-- The bytes of a cell. -/
def Cell.span : Cell → Span
  | var _ type address => ⟨address, type.size⟩
  | returnSlot _ address => ⟨address, 4⟩

/-! ## Ledgers -/

/-- **A ledger**: cells that were handed out one after the other, the last one
first, while a cursor moved from `low` to where it stands. -/
inductive Ledger (low : UInt32) : List Cell → UInt32 → Prop
  | start : Ledger low [] low
  /-- A cell is handed out where the cursor stands. -/
  | take {cells : List Cell} {cursor : UInt32} (cell : Cell) (h : Ledger low cells cursor)
      (hstart : cell.span.start = cursor)
      (hroom : cursor.toNat + cell.span.size < UInt32.size) :
      Ledger low (cell :: cells) (addressAfter cursor cell.span.size)
  /-- The cursor moves without a cell being handed out. -/
  | skip {cells : List Cell} {cursor next : UInt32} (h : Ledger low cells cursor)
      (hle : cursor ≤ next) : Ledger low cells next

namespace Ledger

variable {low cursor : UInt32} {cells : List Cell} {c d : Cell}

/-- The cells of a ledger lie between its start and its cursor. -/
theorem within (h : Ledger low cells cursor) :
    low ≤ cursor ∧ ∀ c ∈ cells, c.span.Within low cursor := by
  induction h with
  | start => exact ⟨UInt32.le_refl _, nofun⟩
  | take cell h hstart hroom ih =>
    subst hstart
    refine ⟨UInt32.le_trans ih.1 (le_addressAfter hroom), ?_⟩
    intro c hc
    rcases List.mem_cons.mp hc with rfl | hc
    · exact (Span.within_addressAfter hroom).mono ih.1 (UInt32.le_refl _)
    · exact (ih.2 c hc).mono (UInt32.le_refl _) (le_addressAfter hroom)
  | skip h hle ih =>
    exact ⟨UInt32.le_trans ih.1 hle, fun c hc => (ih.2 c hc).mono (UInt32.le_refl _) hle⟩

/-- **The cells of a ledger lie apart.** -/
theorem eq_or_apart (h : Ledger low cells cursor) (hc : c ∈ cells) (hd : d ∈ cells) :
    c = d ∨ c.span.Apart d.span := by
  induction h with
  | start => nomatch hc
  | take cell h hstart hroom ih =>
    subst hstart
    have hcell := Span.within_addressAfter hroom
    rw [List.mem_cons] at hc hd
    rcases hc with rfl | hc <;> rcases hd with rfl | hd
    · exact .inl rfl
    · exact .inr ((h.within.2 d hd).apart hcell).symm
    · exact .inr ((h.within.2 c hc).apart hcell)
    · exact ih hc hd
  | skip h hle ih => exact ih hc hd

end Ledger

/-! ## Backing -/

/-- **A table is backed** if the cells of its variables are in the ledger. A
list is not asked for, because it has no cell of its own. -/
def Table.Backed (cells : List Cell) (vars : Table Variable) : Prop :=
  ∀ name v, vars.get? name = some v → v.type.isList = false →
    .var name v.type v.address ∈ cells

theorem Table.Backed.mono {cells cells' : List Cell} {vars : Table Variable}
    (h : vars.Backed cells) (hsub : cells ⊆ cells') : vars.Backed cells' :=
  fun name v hv hlist => hsub (h name v hv hlist)

/-- Binding a name asks for no more than the cell of its new variable. -/
theorem Table.Backed.insert {cells : List Cell} {vars : Table Variable}
    (h : vars.Backed cells) {name : String} {v : Variable}
    (hv : v.type.isList = false → .var name v.type v.address ∈ cells) :
    (vars.insert name v).Backed cells := by
  intro other w hw hlist
  by_cases hname : other = name
  · subst hname
    rw [Table.get?_insert_self, Option.some.injEq] at hw
    subst hw
    exact hv hlist
  · rw [Table.get?_insert_of_ne vars hname] at hw
    exact h other w hw hlist

/-- **A function is backed**: its return cell and the variables that it records
are in the ledger, and its parameters lie apart between two addresses. -/
structure Function.Backed (low high : UInt32) (cells : List Cell) (name : String)
    (f : Function) : Prop where
  returnSlot : .returnSlot name f.returnSlot ∈ cells
  vars : f.symbols.vars.Backed cells
  apart : f.params.Pairwise fun p q => p.span.Apart q.span
  within : ∀ p ∈ f.params, p.span.Within low high

theorem Function.Backed.mono {low high high' : UInt32} {cells cells' : List Cell} {name : String}
    {f : Function} (h : f.Backed low high cells name) (hhigh : high ≤ high')
    (hsub : cells ⊆ cells') : f.Backed low high' cells' name where
  returnSlot := hsub h.returnSlot
  vars := h.vars.mono hsub
  apart := h.apart
  within p hp := (h.within p hp).mono (UInt32.le_refl _) hhigh

/-- **Symbols grow into others** over a ledger from `low` on: the cursor moves
forward, and a ledger that backs the variables of the first can be continued
to one that backs the variables of the second and the functions that are
new. -/
structure Symbols.Grows (low : UInt32) (s s' : Symbols Function Namespace) : Prop where
  le : s.nextAddress ≤ s'.nextAddress
  continues : ∀ cells, Ledger low cells s.nextAddress → s.vars.Backed cells →
    ∃ cells', cells ⊆ cells' ∧ Ledger low cells' s'.nextAddress ∧ s'.vars.Backed cells' ∧
      ∀ name f, s'.functions.get? name = some f →
        s.functions.get? name = some f ∨ f.Backed low s'.nextAddress cells' name

namespace Symbols.Grows

variable {low : UInt32} {s t u : Symbols Function Namespace}

protected theorem refl (low : UInt32) (s : Symbols Function Namespace) : Grows low s s where
  le := UInt32.le_refl _
  continues cells hledger hvars := ⟨cells, fun _ => id, hledger, hvars, fun _ _ => .inl⟩

protected theorem trans (hst : Grows low s t) (htu : Grows low t u) : Grows low s u := by
  refine ⟨UInt32.le_trans hst.le htu.le, fun cells hledger hvars => ?_⟩
  obtain ⟨cells₁, hsub₁, hledger₁, hvars₁, hfunctions₁⟩ := hst.continues cells hledger hvars
  obtain ⟨cells₂, hsub₂, hledger₂, hvars₂, hfunctions₂⟩ := htu.continues cells₁ hledger₁ hvars₁
  refine ⟨cells₂, fun _ hc => hsub₂ (hsub₁ hc), hledger₂, hvars₂, fun name f hf => ?_⟩
  rcases hfunctions₂ name f hf with hf | hf
  · exact (hfunctions₁ name f hf).imp id fun hf => hf.mono htu.le hsub₂
  · exact .inr hf

/-- Symbols with the same variables and functions grow into each other when the
cursor moves forward. -/
theorem of_cursor (hvars : t.vars = s.vars) (hfunctions : t.functions = s.functions)
    (hle : s.nextAddress ≤ t.nextAddress) : Grows low s t where
  le := hle
  continues cells hledger hbacked :=
    ⟨cells, fun _ => id, hledger.skip hle, hvars ▸ hbacked, fun _ _ hf => .inl (hfunctions ▸ hf)⟩

/-- **Binding a fresh cell**: a variable is bound where the cursor stands, and
the cursor moves behind it. -/
theorem bindCell (name : String) (type : ValueType) (value : Stored)
    (hroom : s.nextAddress.toNat + type.size < UInt32.size) :
    Grows low s ({ s with nextAddress := addressAfter s.nextAddress type.size }.insertVariable
      name ⟨s.nextAddress, type, value⟩) where
  le := le_addressAfter hroom
  continues cells hledger hbacked := by
    refine ⟨.var name type s.nextAddress :: cells, List.subset_cons_self _ _,
      hledger.take (.var name type s.nextAddress) rfl hroom, ?_, fun _ _ => .inl⟩
    exact (hbacked.mono (List.subset_cons_self _ _)).insert fun _ => List.mem_cons_self

/-- **Binding a list**: it needs no cell. -/
theorem bindList (name : String) (address : UInt32) (element : Scalar) (len : Nat)
    (value : Stored) :
    Grows low s (s.insertVariable name ⟨address, .list element len, value⟩) where
  le := UInt32.le_refl _
  continues cells hledger hbacked :=
    ⟨cells, fun _ => id, hledger, hbacked.insert nofun, fun _ _ => .inl⟩

/-- A bound variable keeps its cell when only its value is recorded. -/
theorem setValue {name : String} {v : Variable} (h : s.vars.get? name = some v) (value : Stored) :
    Grows low s (s.insertVariable name { v with value := value }) where
  le := UInt32.le_refl _
  continues cells hledger hbacked :=
    ⟨cells, fun _ => id, hledger, hbacked.insert (hbacked name v h), fun _ _ => .inl⟩

/-- **Folding a child back.** The child started from some of what the parent
knows; the parent keeps its variables, takes over the cursor, and adds only
functions that the child ended with. -/
theorem foldBack {start child : Symbols Function Namespace} (h : Grows low start child)
    (hcursor : start.nextAddress = s.nextAddress)
    (hvars : ∀ name v, start.vars.get? name = some v → s.vars.get? name = some v)
    (hfunctions : ∀ name f, start.functions.get? name = some f →
      s.functions.get? name = some f)
    (hcursor' : t.nextAddress = child.nextAddress) (hvars' : t.vars = s.vars)
    (hfunctions' : ∀ name f, t.functions.get? name = some f →
      s.functions.get? name = some f ∨ child.functions.get? name = some f) :
    Grows low s t := by
  have hle := h.le
  rw [hcursor, ← hcursor'] at hle
  refine ⟨hle, fun cells hledger hbacked => ?_⟩
  have hstart : start.vars.Backed cells := fun name v hv => hbacked name v (hvars name v hv)
  -- the cells of the child stay taken, although its variables go out of sight
  obtain ⟨cells', hsub, hledger', _, hchild⟩ := h.continues cells (hcursor ▸ hledger) hstart
  refine ⟨cells', hsub, hcursor' ▸ hledger', hvars' ▸ hbacked.mono hsub, fun name f hf => ?_⟩
  rw [hcursor']
  rcases hfunctions' name f hf with hf | hf
  · exact .inl hf
  · exact (hchild name f hf).imp (hfunctions name f) id

/-- **Declaring a function.** The ledger is continued through the parameters and
the body, which also sees the function itself, and takes the cell of the
return address last. What the body bound is not in sight any more, but the
function records it. -/
theorem declareFunction {start inner : Symbols Function Namespace} {name : String}
    {stub f : Function} (hstart : Grows low s start)
    (hinner : Grows low (start.insertFunction name stub) inner)
    (hroom : inner.nextAddress.toNat + 4 < UInt32.size)
    (hslot : f.returnSlot = inner.nextAddress) (hrecord : f.symbols.vars = inner.vars)
    (hapart : f.params.Pairwise fun p q => p.span.Apart q.span)
    (hwithin : ∀ p ∈ f.params, p.span.Within s.nextAddress start.nextAddress)
    (hcursor : t.nextAddress = addressAfter inner.nextAddress 4) (hvars : t.vars = s.vars)
    (hfunctions : t.functions = s.functions) : Grows low s (t.insertFunction name f) := by
  have hle : start.nextAddress ≤ t.nextAddress := by
    rw [hcursor]
    exact UInt32.le_trans hinner.le (le_addressAfter hroom)
  refine ⟨UInt32.le_trans hstart.le hle, fun cells hledger hbacked => ?_⟩
  -- functions of the body go out of sight with it, so only its variables are followed
  obtain ⟨cells₁, hsub₁, hledger₁, hbacked₁, -⟩ := hstart.continues cells hledger hbacked
  obtain ⟨cells₂, hsub₂, hledger₂, hbacked₂, -⟩ := hinner.continues cells₁ hledger₁ hbacked₁
  have hsub : cells₂ ⊆ .returnSlot name inner.nextAddress :: cells₂ := List.subset_cons_self _ _
  refine ⟨.returnSlot name inner.nextAddress :: cells₂, fun _ hc => hsub (hsub₂ (hsub₁ hc)),
    ?_, ?_, fun other g hg => ?_⟩
  · show Ledger low _ t.nextAddress
    rw [hcursor]
    exact hledger₂.take (.returnSlot name inner.nextAddress) rfl hroom
  · show t.vars.Backed _
    rw [hvars]
    exact hbacked.mono fun _ hc => hsub (hsub₂ (hsub₁ hc))
  · unfold Symbols.insertFunction at hg
    by_cases hname : other = name
    · subst hname
      rw [Table.get?_insert_self, Option.some.injEq] at hg
      subst hg
      refine .inr ⟨?_, ?_, hapart, fun p hp => (hwithin p hp).mono hledger.within.1 hle⟩
      · rw [hslot]
        exact List.mem_cons_self
      · rw [hrecord]
        exact hbacked₂.mono hsub
    · rw [Table.get?_insert_of_ne _ hname, hfunctions] at hg
      exact .inl hg

theorem of_step {names : String → Prop} (h : Symbols.Step names s t) : Grows low s t := by
  cases h with
  | moveCursor h => exact .of_cursor rfl rfl h
  | moveDataCursor h => exact .of_cursor rfl rfl (UInt32.le_refl _)
  | bindCell type value hname hroom => exact .bindCell _ type value hroom
  | bindList address element len value hname => exact .bindList _ address element len value
  | setValue value h => exact .setValue h value

theorem of_steps {names : String → Prop} (h : Relation.ReflTransGen (Symbols.Step names) s t) :
    Grows low s t := by
  induction h with
  | refl => exact .refl low s
  | tail _ hstep ih => exact ih.trans (.of_step hstep)

end Symbols.Grows

/-- The symbols of a scope grow. -/
def Scope.Grows (low : UInt32) (s s' : Scope) : Prop := s.symbols.Grows low s'.symbols

namespace Scope.Grows

variable {low : UInt32} {s child : Scope}

instance : Std.Refl (Scope.Grows low) := ⟨fun s => .refl low s.symbols⟩

instance : Trans (Scope.Grows low) (Scope.Grows low) (Scope.Grows low) :=
  ⟨fun hst htu => Symbols.Grows.trans hst htu⟩

theorem of_edits {names : String → Prop} {s s' : Scope} (h : s.Edits names s') : s.Grows low s' :=
  .of_steps h.steps

/-- **Folding back a block** that does not share the tables: what it grew into
is kept in the ledger, and so is what it exports. -/
theorem sync (link : Link) (hshared : link ≠ .shared)
    (h : (s.fork link).symbols.Grows low child.symbols) (hlink : child.link = link) :
    s.Grows low (s.sync child) := by
  have himports := Scope.imports_syncSymbols (s := s) (hlink ▸ hshared : child.link ≠ .shared)
  refine h.foldBack ?_ ?_ ?_ himports.nextAddress himports.vars himports.functions
  · cases link <;> rfl
  · intro name v hv
    cases link with
    | isolated => exact nomatch hv
    | copy | shared | passThrough => exact hv
  · intro name f hf
    cases link with
    | isolated => exact nomatch hf
    | copy | shared | passThrough => exact hf

/-- Folding back an unrolled block, which works on the tables of its scope. -/
theorem sync_unrolled (h : s.forkUnrolled.Grows low child) (hlink : child.link = .shared) :
    s.Grows low (s.sync child) := by
  unfold Scope.Grows Scope.sync Scope.syncSymbols
  rw [hlink]
  exact h

end Scope.Grows

/-! ## Parameters -/

namespace CompileM

variable {line : Nat} {s s' : Scope} {u : Unit}

/-- The cells of elements follow each other without a gap. -/
theorem toNat_nextAddress_of_reserveElements {list : String} {element : Scalar}
    {count index : Nat} (h : reserveElements line list element count index s = .ok u s') :
    s'.symbols.nextAddress.toNat = s.symbols.nextAddress.toNat + count * element.size := by
  induction count generalizing index s with
  | zero =>
    obtain ⟨-, rfl⟩ := pure_eq_ok_iff.mp h
    rw [Nat.zero_mul, Nat.add_zero]
  | succ count ih =>
    rw [reserveElements] at h
    simp only [bind_eq_ok_iff, allocate_eq_ok_iff, bindVariable_eq_ok_iff] at h
    obtain ⟨_, _, ⟨hroom, rfl, rfl⟩, _, _, rfl, h⟩ := h
    have hcursor : s'.symbols.nextAddress.toNat
        = (addressAfter s.symbols.nextAddress element.size).toNat + count * element.size := ih h
    rw [hcursor, toNat_addressAfter hroom, Nat.succ_mul]
    omega

theorem toNat_nextAddress_of_fillElements {list : String} {element : Scalar} {loads : List Loaded}
    {code : Fragment} {count index : Nat}
    (h : fillElements line list element count index loads s = .ok code s') :
    s'.symbols.nextAddress.toNat = s.symbols.nextAddress.toNat + count * element.size := by
  induction count generalizing index loads code s with
  | zero =>
    obtain ⟨-, rfl⟩ := pure_eq_ok_iff.mp h
    rw [Nat.zero_mul, Nat.add_zero]
  | succ count ih =>
    -- with a loaded item or without one, the first element takes its own size
    have hfirst : ∀ {loads : List Loaded} {more : Fragment} {value : Stored},
        s.symbols.nextAddress.toNat + element.size < UInt32.size →
        fillElements line list element count (index + 1) loads { s with
          symbols := { s.symbols with
            nextAddress := addressAfter s.symbols.nextAddress element.size }.insertVariable
              (elementName list index) ⟨s.symbols.nextAddress, .scalar element, value⟩ }
          = .ok more s' →
        s'.symbols.nextAddress.toNat
          = s.symbols.nextAddress.toNat + (count + 1) * element.size := by
      intro loads more value hroom h
      have hcursor : s'.symbols.nextAddress.toNat
          = (addressAfter s.symbols.nextAddress element.size).toNat + count * element.size := ih h
      rw [hcursor, toNat_addressAfter hroom, Nat.succ_mul]
      omega
    cases loads with
    | nil =>
      rw [fillElements] at h
      simp only [bind_eq_ok_iff, allocate_eq_ok_iff, bindVariable_eq_ok_iff, pure_eq_ok_iff] at h
      obtain ⟨_, _, ⟨hroom, rfl, rfl⟩, _, _, rfl, _, _, h, -, rfl⟩ := h
      exact hfirst hroom h
    | cons loaded rest =>
      rw [fillElements] at h
      simp only [bind_eq_ok_iff, allocate_eq_ok_iff, bindVariable_eq_ok_iff, pure_eq_ok_iff] at h
      obtain ⟨_, _, ⟨hroom, rfl, rfl⟩, _, _, rfl, _, _, h, -, rfl⟩ := h
      exact hfirst hroom h

/-- A parameter takes the extent of its type. -/
theorem toNat_nextAddress_of_reserveParam {name : String} {type : ValueType}
    (h : reserveParam line name type s = .ok u s') :
    s'.symbols.nextAddress.toNat = s.symbols.nextAddress.toNat + type.extent := by
  cases type with
  | list element len => exact toNat_nextAddress_of_reserveElements h
  | scalar ty =>
    obtain ⟨address, hallocate, -⟩ := map_eq_ok_iff.mp h
    obtain ⟨hroom, -, rfl⟩ := allocate_eq_ok_iff.mp hallocate
    exact toNat_addressAfter hroom
  | pointer target =>
    obtain ⟨address, hallocate, -⟩ := map_eq_ok_iff.mp h
    obtain ⟨hroom, -, rfl⟩ := allocate_eq_ok_iff.mp hallocate
    exact toNat_addressAfter hroom

/-- **Parameters lie apart**, between where the cursor stood before them and
where it stands behind them. -/
theorem spans_of_declareParams {formals : List Formal} {params : List Param}
    (h : declareParams line formals s = .ok params s') :
    s.symbols.nextAddress ≤ s'.symbols.nextAddress
      ∧ params.Pairwise (fun p q => p.span.Apart q.span)
      ∧ ∀ p ∈ params, p.span.Within s.symbols.nextAddress s'.symbols.nextAddress := by
  induction formals generalizing s params with
  | nil =>
    obtain ⟨rfl, rfl⟩ := pure_eq_ok_iff.mp h
    exact ⟨UInt32.le_refl _, .nil, nofun⟩
  | cons p rest ih =>
    obtain ⟨t, more, hreserve, hrest, rfl⟩ := declareParams_cons_eq_ok_iff.mp h
    obtain ⟨hle, hapart, hwithin⟩ := ih hrest
    have hcursor := toNat_nextAddress_of_reserveParam hreserve
    have hfirst : Param.span ⟨p.name, s.symbols.nextAddress, p.type⟩ |>.Within
        s.symbols.nextAddress t.symbols.nextAddress :=
      ⟨Nat.le_refl _, Nat.le_of_eq hcursor.symm⟩
    have hst : s.symbols.nextAddress ≤ t.symbols.nextAddress := by
      rw [UInt32.le_iff_toNat_le, hcursor]
      exact Nat.le_add_right _ _
    refine ⟨UInt32.le_trans hst hle, List.pairwise_cons.mpr ⟨?_, hapart⟩, ?_⟩
    · intro q hq
      exact hfirst.apart (hwithin q hq)
    · rw [List.forall_mem_cons]
      exact ⟨hfirst.mono (UInt32.le_refl _) hle,
        fun q hq => (hwithin q hq).mono hst (UInt32.le_refl _)⟩

/-! ## Statements -/

variable {low : UInt32} {code : Fragment} {x : CompileM Unit}

theorem grows_emit (stream : Stream) (code : Fragment) :
    Follows (Scope.Grows low) (emit stream code) := by
  intro s u s' h
  rw [← emit_eq_ok_iff.mp h]
  cases stream <;> exact .refl low s.symbols

theorem grows_setValue (name : String) (value : Stored) (line : Nat) :
    Follows (Scope.Grows low) (setValue name value line) := by
  intro s u s' h
  obtain ⟨v, hv, rfl⟩ := setValue_eq_ok_iff.mp h
  exact .setValue hv value

theorem grows_function (hx : Follows (Scope.Grows low) x) (hstays : Follows Scope.Stays x)
    {name : String} {formals : List Formal} :
    Follows (Scope.Grows low) (function line name formals x) := by
  intro s code s' h
  obtain ⟨params, slot, start, inner, child, -, hparams, hbody, hslot, -, hdeclare⟩ :=
    function_eq_ok_iff.mp h
  obtain ⟨-, hapart, hwithin⟩ := spans_of_declareParams hparams
  have hedits : Scope.Edits (fun _ => True) _ start :=
    edits_declareParams (fun _ _ _ _ => trivial) hparams
  have hlink : inner.link = .copy := (hstays hbody).link.trans (Scope.Stays.of_edits hedits).link
  obtain ⟨hroom, rfl, hchild⟩ := allocate_eq_ok_iff.mp hslot
  -- the child is a copy: its cursors come back, and nothing of its tables
  have hsync : Scope.syncSymbols { s with functionLabels := s.functionLabels ++ [s.qualify name] }
      child = s.symbols.adoptCursors child.symbols := by
    have hchildLink : child.link = .copy := by
      rw [← hchild]
      exact hlink
    unfold Scope.syncSymbols
    rw [hchildLink]
  rw [← declareFunction_eq_ok_iff.mp hdeclare]
  unfold Scope.Grows Scope.sync
  rw [hsync]
  refine .declareFunction (.of_steps hedits.steps)
    (hx hbody) hroom rfl ?_ hapart hwithin ?_ rfl rfl
  · rw [← hchild]
    rfl
  · rw [← hchild]
    rfl

/-- **An unrolled loop keeps the ledger**: its variable gets a cell, and every
copy works on the same tables. -/
theorem grows_unroll (hx : Follows (Scope.Grows low) x) (hstays : Follows Scope.Stays x)
    {var iterable : String} : Follows (Scope.Grows low) (unroll line var iterable x) := by
  intro s code s' h
  obtain ⟨v, element, len, child, -, -, hroom, hcopies, -, rfl⟩ := unroll_eq_ok_iff.mp h
  have hindexed : s.symbols.Grows low (s.forkIndexed var).symbols :=
    .bindCell var (.scalar .int) .zeroed hroom
  have hchild : (s.forkIndexed var).Grows low child :=
    follows_copies hx (fun _ => grows_emit _ _) (fun _ => grows_setValue _ _ _) len 0 hcopies
  have hlink : child.link = .shared :=
    (follows_copies hstays (fun _ => stays_emit _ _) (fun _ => stays_setValue _ _ _) len 0
      hcopies).link
  exact .sync_unrolled (Symbols.Grows.trans hindexed hchild) hlink

end CompileM

theorem Stmt.grows (low : UInt32) (stmt : Stmt) :
    CompileM.Follows (Scope.Grows low) stmt.compile := by
  induction stmt using Stmt.blockInduction with
  | simple stmt hsimple => exact fun _ _ _ h => .of_edits (stmt.edits_of_isSimple hsimple h)
  | branch line cond thenBody elseBody ih₁ ih₂ =>
    intro s code s' h
    obtain ⟨_, first, second, -, hfirst, hsecond, -, rfl⟩ := CompileM.branch_eq_ok_iff.mp h
    have hgrow₁ := follows_compileAll CompileM.grows_emit ih₁ hfirst
    have hgrow₂ := follows_compileAll CompileM.grows_emit ih₂ hsecond
    have hlink₁ := (compileAll_stays thenBody hfirst).link
    have hlink₂ := (compileAll_stays elseBody hsecond).link
    exact Symbols.Grows.trans (Scope.Grows.sync .copy nofun hgrow₁ hlink₁)
      (Scope.Grows.sync .copy nofun hgrow₂ hlink₂)
  | loop line cond body ih =>
    intro s code s' h
    obtain ⟨_, child, -, hchild, -, rfl⟩ := CompileM.loop_eq_ok_iff.mp h
    have hgrow := follows_compileAll CompileM.grows_emit ih hchild
    have hlink := (compileAll_stays body hchild).link
    exact Scope.Grows.sync .copy nofun hgrow hlink
  | unroll line var iterable body ih =>
    exact CompileM.grows_unroll (follows_compileAll CompileM.grows_emit ih)
      (compileAll_stays body)
  | function line name formals body ih =>
    exact CompileM.grows_function (follows_compileAll CompileM.grows_emit ih)
      (compileAll_stays body)
  | space line name body ih =>
    intro s code s' h
    obtain ⟨child, hchild, -, hdeclare⟩ := CompileM.space_eq_ok_iff.mp h
    have hgrow := follows_compileAll CompileM.grows_emit ih hchild
    have hlink := (compileAll_stays body hchild).link
    rw [← CompileM.declareNamespace_eq_ok_iff.mp hdeclare]
    exact Symbols.Grows.trans (Scope.Grows.sync .passThrough nofun hgrow hlink)
      (.of_cursor rfl rfl (UInt32.le_refl _))
  | unit line path body ih =>
    intro s code s' h
    obtain ⟨child, hchild, -, rfl⟩ := CompileM.unit_eq_ok_iff.mp h
    have hgrow := follows_compileAll CompileM.grows_emit ih hchild
    have hlink := (compileAll_stays body hchild).link
    exact Scope.Grows.sync .isolated nofun hgrow hlink

theorem compileAll_grows (low : UInt32) (stmts : List Stmt) :
    CompileM.Follows (Scope.Grows low) (compileAll stmts) :=
  follows_compileAll CompileM.grows_emit fun stmt _ => stmt.grows low

/-! ## Programs -/

namespace Program

/-- The tables of a program: the one it ended with, and the one that each of its
functions recorded. -/
inductive Knows (p : Program) : Table Variable → Prop
  | root : Knows p p.symbols.vars
  | recorded {name : String} {f : Function} (hf : p.symbols.functions.get? name = some f) :
      Knows p f.symbols.vars

/-- **The cells of a program**: those of the variables in its tables that are not
lists, and the return cells of its functions. -/
inductive Holds (p : Program) : Cell → Prop
  | var {vars : Table Variable} {name : String} {v : Variable} (hvars : p.Knows vars)
      (hv : vars.get? name = some v) (hlist : v.type.isList = false) :
      Holds p (.var name v.type v.address)
  | returnSlot {name : String} {f : Function} (hf : p.symbols.functions.get? name = some f) :
      Holds p (.returnSlot name f.returnSlot)

variable {config : Config} {stmts : List Stmt} {p : Program}

/-- **One ledger backs a whole program**: it has all cells of the program, and
backs all functions. -/
theorem exists_ledger (h : compile config stmts = .ok p) :
    ∃ cells, Ledger config.bitstart cells p.symbols.nextAddress ∧ p.symbols.vars.Backed cells
      ∧ ∀ name f, p.symbols.functions.get? name = some f →
        f.Backed config.bitstart p.symbols.nextAddress cells name := by
  unfold compile at h
  split at h
  next s hrun =>
    cases h
    have hgrow := compileAll_grows config.bitstart stmts hrun
    obtain ⟨cells, -, hledger, hvars, hfunctions⟩ := hgrow.continues [] .start nofun
    exact ⟨cells, hledger, hvars, fun name f hf => (hfunctions name f hf).resolve_left nofun⟩
  next => exact nomatch h

/-- **Cells do not overlap.** Any two cells of a compiled program are the same
cell or lie apart; in one table, the cells of different names lie apart; the
parameters of a function lie apart; and all of them lie between the address
that cells start from and the first that was not handed out. -/
theorem apart_of_compile (h : compile config stmts = .ok p) :
    (∀ c d, p.Holds c → p.Holds d → c = d ∨ c.span.Apart d.span)
      ∧ (∀ vars, p.Knows vars → ∀ name₁ name₂ v₁ v₂, vars.get? name₁ = some v₁ →
        vars.get? name₂ = some v₂ → v₁.type.isList = false → v₂.type.isList = false →
        name₁ ≠ name₂ → (Cell.var name₁ v₁.type v₁.address).span.Apart
          (Cell.var name₂ v₂.type v₂.address).span)
      ∧ (∀ name f, p.symbols.functions.get? name = some f →
        f.params.Pairwise fun q r => q.span.Apart r.span)
      ∧ (∀ c, p.Holds c → c.span.Within config.bitstart p.symbols.nextAddress)
      ∧ (∀ name f, p.symbols.functions.get? name = some f →
        ∀ q ∈ f.params, q.span.Within config.bitstart p.symbols.nextAddress) := by
  obtain ⟨cells, hledger, hvars, hfunctions⟩ := exists_ledger h
  have hknows : ∀ vars, p.Knows vars → vars.Backed cells := by
    intro vars hvars'
    cases hvars' with
    | root => exact hvars
    | recorded hf => exact (hfunctions _ _ hf).vars
  have hmem : ∀ c, p.Holds c → c ∈ cells := by
    intro c hc
    cases hc with
    | var hvars' hv hlist => exact hknows _ hvars' _ _ hv hlist
    | returnSlot hf => exact (hfunctions _ _ hf).returnSlot
  refine ⟨fun c d hc hd => hledger.eq_or_apart (hmem c hc) (hmem d hd), ?_,
    fun name f hf => (hfunctions name f hf).apart,
    fun c hc => hledger.within.2 c (hmem c hc),
    fun name f hf => (hfunctions name f hf).within⟩
  -- a cell carries its name, so the cells of two names are never the same
  intro vars hvars' name₁ name₂ v₁ v₂ hv₁ hv₂ hlist₁ hlist₂ hne
  have h₁ := hknows vars hvars' name₁ v₁ hv₁ hlist₁
  have h₂ := hknows vars hvars' name₂ v₂ hv₂ hlist₂
  exact (hledger.eq_or_apart h₁ h₂).resolve_left fun heq => hne (Cell.var.inj heq).1

/-- A program whose cells come from everywhere: a variable, a list, the index and
the two copies of an unrolled loop, and a function with parameters and a
variable of its own. -/
def scattered : List Stmt :=
  [.declare 1 (.scalar .char) "c" (.char 97),
    .declareList 2 "xs" (some .int) none (some (.list [.int 1, .int 2])),
    .unroll 3 "i" "xs" [.declare 4 (.scalar .int) "t" (.ident "i")],
    .function 5 "f" [⟨"l", .list .int 2⟩, ⟨"n", .pointer .char⟩]
      [.declare 6 (.scalar .int) "u" (.int 3)]]

theorem apart_of_compile_scattered :
    ∃ p, compile {} scattered = .ok p
      ∧ p.Holds (.var "t" (.scalar .int) 0x10000011) ∧ p.Holds (.returnSlot "f" 0x10000025)
      ∧ (Cell.var "t" (.scalar .int) 0x10000011).span.Apart
        (Cell.returnSlot "f" 0x10000025).span := by
  have hcells : (compile {} scattered).toOption.map
      (fun p => (p.symbols.vars.get? "t", (p.symbols.functions.get? "f").map (·.returnSlot)))
        = some (some ⟨0x10000011, .scalar .int, .copied "i"⟩, some 0x10000025) := by
    decide +kernel
  cases hp : compile {} scattered with
  | error e =>
    rw [hp] at hcells
    exact nomatch hcells
  | ok p =>
    rw [hp] at hcells
    have hpair := Prod.mk.inj (Option.some.inj hcells)
    obtain ⟨f, hf, hslot⟩ := Option.map_eq_some_iff.mp hpair.2
    have ht : p.Holds (.var "t" (.scalar .int) 0x10000011) := .var .root hpair.1 rfl
    have hreturn : p.Holds (.returnSlot "f" 0x10000025) := hslot ▸ .returnSlot hf
    exact ⟨p, rfl, ht, hreturn, ((apart_of_compile hp).1 _ _ ht hreturn).resolve_left nofun⟩

end Program

end RegMachine
