import RegMachine.Proofs.TwoPass

/-!
# Forward references land on boundaries

A *boundary* of a program is a place where one of its instructions starts, or the end of the
program. A forward reference is written as a number of instructions and is turned into an
address by adding up lengths, so it should mean a boundary: the one as many instructions on.

It does if it is seen from a load of a whole word, which is what generated code uses it in.
`Layout.forwardTarget` takes the instruction that holds the reference to be two words long.
Any other instruction is one word long, and from there the reference means the address one
word behind the boundary (`Layout.target_add_length`). Such an address may lie inside an
instruction, or behind the end of the program.
-/

namespace RegMachine.Layout

variable {l : Layout} {index distance line : Nat}

/-! ## Boundaries -/

/-- **The boundary of an index**: the place where the instruction of this index starts, and
behind the last instruction the end of the program. -/
def boundary? (l : Layout) (index : Nat) : Option Nat :=
  if index = l.count then some l.size else l.offset? index

theorem boundary?_eq_some (h : index ≤ l.count) : l.boundary? index = some (l.start index) := by
  unfold boundary?
  split
  next heq => rw [heq, start_count]
  next hne => exact if_pos (Nat.lt_of_le_of_ne h hne)

/-- The instructions behind a boundary lead to the next boundaries. -/
theorem start_add (l : Layout) (index skipped : Nat) :
    l.start (index + skipped)
      = l.start index + extent ((l.lengths.drop index).take skipped) := by
  unfold start
  rw [List.take_add, extent_append]

/-- No boundary lies behind the end of the program. -/
theorem start_le_size (l : Layout) (index : Nat) : l.start index ≤ l.size := by
  have hsplit := extent_append (l.lengths.take index) (l.lengths.drop index)
  rw [List.take_append_drop] at hsplit
  exact Nat.le.intro hsplit.symm

/-- The layout has the lengths of the instructions that the lines hold. -/
theorem exists_length? {lines : List SourceLine} (h : ofLines lines = .ok l)
    (hindex : index < l.count) :
    ∃ i, (instructionsOf lines)[index]? = some i
      ∧ l.length? index = some i.mnemonic.length := by
  have hlengths := (ofLines_eq_ok_iff.mp h).2
  rw [count, hlengths, List.length_map] at hindex
  refine ⟨_, List.getElem?_eq_getElem hindex, ?_⟩
  rw [length?, hlengths, List.getElem?_map, List.getElem?_eq_getElem hindex]
  rfl

/-! ## Forward references -/

/-- A reference passes the instruction that holds it, and then those that it skips. -/
theorem passed_eq (index distance : Nat) :
    index + max distance 1 = index + 1 + (max distance 1 - 1) := by
  have hone : 1 ≤ max distance 1 := Nat.le_max_right distance 1
  omega

/-- **A reference that passes the last instruction is refused**, with its distance and its
line. -/
theorem forwardTarget_eq_error (h : l.count < index + max distance 1) :
    l.forwardTarget index distance line = .error ⟨line, .forwardPastEnd distance⟩ := by
  rw [passed_eq] at h
  exact if_neg (Nat.not_le_of_lt h)

theorem forwardTarget_isOk_iff :
    (∃ target, l.forwardTarget index distance line = .ok target)
      ↔ index + max distance 1 ≤ l.count := by
  constructor
  · rintro ⟨target, htarget⟩
    refine Nat.le_of_not_lt fun h => ?_
    rw [forwardTarget_eq_error h] at htarget
    exact nomatch htarget
  · intro h
    rw [passed_eq] at h
    exact ⟨_, if_pos h⟩

/-- **What a reference means**: the boundary that it leads to, if the instruction that holds
it were two words long. -/
theorem target_add_length {target length : Nat}
    (h : l.forwardTarget index distance line = .ok target)
    (hlength : l.length? index = some length) :
    target + length = l.start (index + max distance 1) + 8 := by
  have hpassed := forwardTarget_isOk_iff.mp ⟨target, h⟩
  rw [passed_eq] at hpassed
  rw [forwardTarget, if_pos hpassed] at h
  cases h
  obtain ⟨hindex, rfl⟩ := List.getElem?_eq_some_iff.mp hlength
  rw [passed_eq, start_add, start_succ l hindex]
  omega

/-- **Forward references land on boundaries.** In the layout of a text, a reference is
resolved exactly if the program has all the instructions that it passes, of which the one
that holds it is the first; otherwise it is refused. If the reference is in a load of a whole
word, it means the boundary behind the last instruction passed, which is never behind the end
of the program. In an instruction of one word it means the address one word on. -/
theorem forwardTarget_lands {source : String} {l : Layout} (h : ofText source = .ok l) :
    ∃ lines, SourceLine.readAll source = .ok lines
      ∧ l.count = (instructionsOf lines).length
      ∧ ∀ index distance line : Nat,
        ((∃ target, l.forwardTarget index distance line = .ok target)
            ↔ index + max distance 1 ≤ l.count)
          ∧ (l.count < index + max distance 1 →
            l.forwardTarget index distance line = .error ⟨line, .forwardPastEnd distance⟩)
          ∧ ∀ target, l.forwardTarget index distance line = .ok target →
            ∃ i boundary, (instructionsOf lines)[index]? = some i
              ∧ l.boundary? (index + max distance 1) = some boundary ∧ boundary ≤ l.size
              ∧ (i.mnemonic = .ldr ∧ target = boundary
                ∨ i.mnemonic.length = 4 ∧ target = boundary + 4) := by
  obtain ⟨lines, hread, hlayout⟩ := bind_eq_ok_iff.mp h
  have hcount : l.count = (instructionsOf lines).length := by
    rw [count, (ofLines_eq_ok_iff.mp hlayout).2, List.length_map]
  refine ⟨lines, hread, hcount, fun index distance line =>
    ⟨forwardTarget_isOk_iff, forwardTarget_eq_error, fun target htarget => ?_⟩⟩
  have hpassed := forwardTarget_isOk_iff.mp ⟨target, htarget⟩
  have hindex : index < l.count := by
    rw [passed_eq] at hpassed
    omega
  obtain ⟨i, hi, hlength⟩ := exists_length? hlayout hindex
  refine ⟨i, _, hi, boundary?_eq_some hpassed, start_le_size l _, ?_⟩
  have hadd := target_add_length htarget hlength
  rw [Mnemonic.length_eq] at hadd ⊢
  split at hadd
  next hldr => exact .inl ⟨hldr, by omega⟩
  next hword => exact .inr ⟨if_neg hword, by omega⟩

/-- A call with a label and a comment inside: the first load means the boundary behind the
jump, and the jump, at the same distance, would pass the last instruction. -/
theorem forwardTarget_lands_call :
    ∃ l, ofText "ldr r0, $3\n; call\nldr r23, .f\n.midway\njpr r23\n.f\njpr r0" = .ok l
      ∧ l.forwardTarget 0 3 1 = .ok 20 ∧ l.boundary? 3 = some 20
      ∧ l.forwardTarget 2 3 5 = .error ⟨5, .forwardPastEnd 3⟩ := by
  have h : ofText "ldr r0, $3\n; call\nldr r23, .f\n.midway\njpr r23\n.f\njpr r0"
      = .ok ⟨((∅ : LabelTable).insert "midway" 16).insert "f" 20, [8, 8, 4, 4]⟩ := by
    rfl
  obtain ⟨lines, hread, -, hreferences⟩ := forwardTarget_lands h
  cases hread
  obtain ⟨target, htarget⟩ := (hreferences 0 3 1).1.mpr (by decide)
  obtain ⟨i, boundary, hi, hboundary, -, hlands⟩ := (hreferences 0 3 1).2.2 target htarget
  cases hi
  cases hboundary
  obtain ⟨-, rfl⟩ | ⟨hword, -⟩ := hlands
  · exact ⟨_, h, htarget, rfl, (hreferences 2 3 5).2.1 (by decide)⟩
  · exact absurd hword (by decide)

end RegMachine.Layout
