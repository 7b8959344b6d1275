import RegMachine.Proofs.Headers
import RegMachine.Proofs.Passing
import RegMachine.Proofs.Reached

/-!
# Lists are assigned element by element

To assign the items of a list literal to a list, each item is stored in its element as soon as
it is evaluated. So the items are not evaluated in one memory: an item that reads an element
before its own finds the new value there. It is the same with the arguments of a call, and
`Env.pass` says here too which memory comes of it, with the elements for the parameters
(`Env.runs_storeItems`).

The elements of a list lie apart wherever compiling gets to, as they end before the cursor
(`Scope.Reached.lists`), and so what was stored in one of them stays. What is stored is the
value that an item had before the assignment if the item reads no element before its own
(`Scope.Reached.stored_of_assign`). To swap two elements by one assignment breaks that
condition, and `Scope.swapped_not_stored` shows that one of them is lost.
-/

namespace RegMachine

/-! ## Elements -/

/-- **An element of a list**, as a cell that a value is passed to. -/
def elementCell (name : String) (base : UInt32) (element : Scalar) (index : Nat) : Param :=
  ⟨elementName name index, base + UInt32.ofNat (index * element.size), .scalar element⟩

section Elements

variable {name : String} {base cursor : UInt32} {element : Scalar} {len : Nat}

theorem toNat_start_elementCell (hwithin : base.toNat + len * element.size ≤ cursor.toNat)
    {i : Nat} (hi : i < len) :
    (elementCell name base element i).span.start.toNat = base.toNat + i * element.size :=
  toNat_add_of_within hwithin hi

/-- No element of a list that ends before a cursor goes over the end of memory. -/
theorem elementCell_ends (hwithin : base.toNat + len * element.size ≤ cursor.toNat) {i : Nat}
    (hi : i < len) :
    (elementCell name base element i).span.start.toNat
        + (elementCell name base element i).span.size
      ≤ UInt32.size := by
  rw [toNat_start_elementCell hwithin hi]
  have hnext : (i + 1) * element.size ≤ len * element.size := Nat.mul_le_mul_right _ hi
  have hcursor : cursor.toNat < UInt32.size := cursor.toNat_lt
  rw [Nat.succ_mul] at hnext
  show base.toNat + i * element.size + element.size ≤ UInt32.size
  omega

/-- **Two elements of a list** that ends before a cursor have no byte in common. -/
theorem elementCell_misses (hwithin : base.toNat + len * element.size ≤ cursor.toNat) {i j : Nat}
    (hij : i < j) (hj : j < len) :
    (elementCell name base element i).span.Misses (elementCell name base element j).span := by
  have hi : i < len := Nat.lt_trans hij hj
  refine Span.Apart.misses (.inl ?_) (elementCell_ends hwithin hi) (elementCell_ends hwithin hj)
  rw [toNat_start_elementCell hwithin hi, toNat_start_elementCell hwithin hj]
  have hnext : (i + 1) * element.size ≤ j * element.size := Nat.mul_le_mul_right _ hij
  rw [Nat.succ_mul] at hnext
  show base.toNat + i * element.size + element.size ≤ base.toNat + j * element.size
  omega

theorem pairwise_elementCell (hwithin : base.toNat + len * element.size ≤ cursor.toNat)
    {count : Nat} (hcount : count ≤ len) :
    ((List.range count).map (elementCell name base element)).Pairwise
      fun p q => p.span.Misses q.span := by
  refine List.pairwise_map.mpr (List.pairwise_lt_range.imp_of_mem fun _ hj hij => ?_)
  exact elementCell_misses hwithin hij (Nat.lt_of_lt_of_le (List.mem_range.mp hj) hcount)

end Elements

/-! ## Code -/

/-- **The code that stores the items of a list** leads to the memory that comes of passing them
to the elements. -/
theorem Env.runs_storeItems {m : Machine} {env : Env} {name : String} {base : UInt32}
    {element : Scalar} {index : Nat} {items : List Expr} {code : Fragment}
    (h : env.storeItems name base element index items = .ok code) :
    m.Runs code fun s s' =>
      env.pass m ((List.range' index items.length).map (elementCell name base element))
        items s.mem
        = some s'.mem := by
  induction items generalizing index code with
  | nil =>
    cases h
    exact fun offset s => ⟨s, rfl, fun rest => rfl⟩
  | cons item rest ih =>
    obtain ⟨loaded, hloaded, h⟩ := bind_eq_ok_iff.mp h
    obtain ⟨more, hmore, h⟩ := bind_eq_ok_iff.mp h
    cases h
    rw [List.length_cons, List.range'_succ, List.map_cons]
    exact runs_pass_cons (assigns_storeTo (computes_load hloaded) (Width.bytes_ofScalar element)
      element.size_le fun _ => rfl) (ih hmore)

/-- The code of an assignment to a list stores the items of its right-hand side, which are not
more than the list has elements. -/
theorem CompileM.storeItems_of_assign {s s' : Scope} {line : Nat} {name : String} {value : Expr}
    {items : List Expr} {v : Variable} {element : Scalar} {len : Nat} {code : Fragment}
    (hv : s.symbols.vars.get? name = some v) (htype : v.type = .list element len)
    (hitems : value.elements? = some items) (h : assign line name value s = .ok code s') :
    items.length ≤ len ∧ ∃ text stores, code = .comment text :: stores
      ∧ (s.env line).storeItems name v.address element 0 items = .ok stores := by
  obtain ⟨w, _, hlookup, h⟩ := bind_eq_ok_iff.mp h
  obtain ⟨hw, rfl⟩ := lookup_eq_ok_iff.mp hlookup
  obtain rfl : v = w := Option.some.inj (hv.symm.trans hw)
  obtain ⟨_, _, henv, h⟩ := bind_eq_ok_iff.mp h
  obtain ⟨rfl, rfl⟩ := env_eq_ok_iff.mp henv
  rw [htype] at h
  obtain ⟨stores, _, hcopy, h⟩ := bind_eq_ok_iff.mp h
  obtain ⟨rfl, -⟩ := pure_eq_ok_iff.mp h
  have hcopy := (liftM_eq_ok_iff.mp hcopy).1
  unfold Env.copyList at hcopy
  split at hcopy
  next => exact nomatch hitems
  next =>
    rw [hitems] at hcopy
    dsimp only at hcopy
    split at hcopy
    next => exact nomatch hcopy
    next hfits => exact ⟨Nat.not_lt.mp hfits, _, stores, rfl, hcopy⟩

/-- **What an assignment to a list stores.** Wherever compiling gets to, let an assignment of
items to a list compile. Then there are not more items than elements. From whatever state the
code is run, it ends, and every element for which there is an item holds the value that the
item had when its turn came, in the memory that storing the items before it had left. That is
the value that the item had before the assignment, if it does not read there a byte of an
element before its own. No other byte of memory has changed, be it of a further element or
outside of the list. -/
theorem Scope.Reached.stored_of_assign (m : Machine) {names : String → Prop} {config : Config}
    {s s' : Scope} {line : Nat} {name : String} {value : Expr} {items : List Expr} {v : Variable}
    {element : Scalar} {len : Nat} {code : Fragment} (hs : Reached names config s)
    (hv : s.symbols.vars.get? name = some v) (htype : v.type = .list element len)
    (hitems : value.elements? = some items)
    (h : (Stmt.assign line name value).compile s = .ok code s') :
    items.length ≤ len
      ∧ ∀ offset (start : Machine.State), ∃ after, m.exec offset code start = some after
        ∧ (∀ i item, items[i]? = some item → ∃ between word,
          (s.env line).pass m ((List.range i).map (elementCell name v.address element))
            (items.take i) start.mem = some between
          ∧ (s.env line).eval m between item = some word
          ∧ m.read after.mem (v.address + UInt32.ofNat (i * element.size)) element.size
            = UInt32.ofNat (word.toNat % 256 ^ element.size)
          ∧ ((∀ j < i, ∀ place ∈ (s.env line).reads m start.mem item,
              place.Misses (elementCell name v.address element j).span) →
            (s.env line).eval m start.mem item = some word))
        ∧ ∀ address,
          (∀ i < items.length, ¬ (elementCell name v.address element i).span.Covers address) →
          after.mem address = start.mem address := by
  have hwithin := (hs.lists name v element len hv htype).2
  obtain ⟨hlength, text, stores, rfl, hstores⟩ := CompileM.storeItems_of_assign hv htype hitems h
  refine ⟨hlength, fun offset start => ?_⟩
  have hrun := (Env.runs_storeItems (m := m) hstores).comment_cons text
  obtain ⟨after, hexec, hpass⟩ := hrun.exec_eq offset start
  rw [← List.range_eq_range'] at hpass
  refine ⟨after, hexec, fun i item hitem => ?_, fun address hmisses => ?_⟩
  · obtain ⟨hi, -⟩ := List.getElem?_eq_some_iff.mp hitem
    have hcell : ((List.range items.length).map (elementCell name v.address element))[i]?
        = some (elementCell name v.address element i) := by
      rw [List.getElem?_map, List.getElem?_range hi]
      rfl
    obtain ⟨between, word, hbetween, hword, hread⟩ :=
      Env.exists_of_pass (pairwise_elementCell hwithin hlength) hpass hcell hitem
    rw [← List.map_take, List.take_range, Nat.min_eq_left (Nat.le_of_lt hi)] at hbetween
    refine ⟨between, word, hbetween, hword, hread, fun hreads => ?_⟩
    rw [← Env.eval_of_pass hbetween fun p hp place hplace => ?_, hword]
    obtain ⟨j, hj, rfl⟩ := List.mem_map.mp hp
    exact hreads j (List.mem_range.mp hj) place hplace
  · refine Env.pass_of_misses hpass fun p hp => ?_
    obtain ⟨i, hi, rfl⟩ := List.mem_map.mp hp
    exact hmisses i (List.mem_range.mp hi)

namespace Scope

theorem get?_holdingPair :
    holdingPair.symbols.vars.get? "xs" = some ⟨0x10000000, .list .int 2, .elements 2⟩ := by
  decide +kernel

/-- Both elements of a list are assigned the second: no item reads an element before its
own. -/
theorem stored_of_assign_filled :
    ∃ code s', (Stmt.assign 2 "xs" (.list [.index "xs" (.int 1), .index "xs" (.int 1)])).compile
        holdingPair = .ok code s'
      ∧ ∀ start : Machine.State, ∃ after word,
        Machine.bigEndianSample.exec 0 code start = some after
        ∧ (holdingPair.env 2).eval .bigEndianSample start.mem (.index "xs" (.int 1)) = some word
        ∧ Machine.bigEndianSample.read after.mem 0x10000000 4
          = UInt32.ofNat (word.toNat % 256 ^ 4)
        ∧ Machine.bigEndianSample.read after.mem 0x10000004 4
          = UInt32.ofNat (word.toNat % 256 ^ 4) := by
  have hrun : CompileM.succeeds
      (Stmt.assign 2 "xs" (.list [.index "xs" (.int 1), .index "xs" (.int 1)])).compile
      holdingPair = true := by decide +kernel
  obtain ⟨code, hcode⟩ := CompileM.exists_of_succeeds hrun
  have hs : Reached (fun _ => True) {} holdingPair := reached_holdingPair trivial
  obtain ⟨-, hstored⟩ := hs.stored_of_assign .bigEndianSample get?_holdingPair rfl rfl hcode
  refine ⟨code, _, hcode, fun start => ?_⟩
  obtain ⟨after, hafter, helements, -⟩ := hstored 0 start
  obtain ⟨-, word, -, -, hfirst, heval⟩ := helements 0 _ rfl
  obtain ⟨-, word', -, -, hsecond, heval'⟩ := helements 1 _ rfl
  replace heval := heval fun j hj => absurd hj (Nat.not_lt_zero j)
  replace heval' := heval' fun j hj place hplace => by
    obtain rfl : j = 0 := Nat.lt_one_iff.mp hj
    have hv : (holdingPair.env 2).vars.get? "xs" = _ := get?_holdingPair
    rw [Env.reads, hv] at hplace
    obtain rfl := List.mem_singleton.mp hplace
    exact Span.Apart.misses (.inr (by decide)) (by decide) (by decide)
  obtain rfl : word = word' := Option.some.inj (heval.symm.trans heval')
  exact ⟨after, word, hafter, heval, hfirst, hsecond⟩

/-- **An element is lost**: where the two elements of a list, which are 1 and 2, are assigned to
it in the other order, the item for the second is 1 before the assignment, and 2 is stored for
it. -/
theorem swapped_not_stored :
    Reached (fun _ => True) {} holdingPair
      ∧ ∃ code s' after,
        (Stmt.assign 2 "xs" (.list [.index "xs" (.int 1), .index "xs" (.int 0)])).compile
          holdingPair = .ok code s'
        ∧ Machine.bigEndianSample.exec 0 code ⟨fun _ => 0, selfMemory⟩ = some after
        ∧ (holdingPair.env 2).eval .bigEndianSample selfMemory (.index "xs" (.int 0)) = some 1
        ∧ Machine.bigEndianSample.read after.mem 0x10000004 4 = 2 := by
  have hrun : CompileM.succeeds
      (Stmt.assign 2 "xs" (.list [.index "xs" (.int 1), .index "xs" (.int 0)])).compile
      holdingPair = true := by decide +kernel
  obtain ⟨code, hcode⟩ := CompileM.exists_of_succeeds hrun
  obtain ⟨-, text, stores, rfl, hstores⟩ :=
    CompileM.storeItems_of_assign get?_holdingPair rfl rfl hcode
  have hstored : ((holdingPair.env 2).storeItems "xs" 0x10000000 .int 0
      [.index "xs" (.int 1), .index "xs" (.int 0)]).toOption.bind (fun stores =>
        (Machine.bigEndianSample.exec 0 stores ⟨fun _ => 0, selfMemory⟩).map fun after =>
          Machine.bigEndianSample.read after.mem 0x10000004 4) = some 2 := by decide +kernel
  rw [hstores] at hstored
  obtain ⟨after, hafter, hread⟩ := Option.map_eq_some_iff.mp hstored
  exact ⟨reached_holdingPair trivial, _, _, after, hcode, hafter, by decide +kernel, hread⟩

end Scope

end RegMachine
