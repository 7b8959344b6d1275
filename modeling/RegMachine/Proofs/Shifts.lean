import RegMachine.Proofs.Acceptance
import RegMachine.Proofs.Returns
import RegMachine.Proofs.Typing

/-!
# The amounts of shifts

The amount of a shift is a literal of 64 bits, and the field of the instruction that
takes it has 16. Nothing on the way from one to the other looks at the size of the number:
the load of an operator checks its other literals only, the amount is written as a decimal
number and read back as the same number, and the encoding keeps the lower half word.

So the code of a shift is always assembled, and the field holds the amount modulo `2 ^ 16`
(`Env.immediate_of_shift`). It is the amount itself exactly if the amount is a half word.
A shift by 65536 is assembled as a shift by nothing (`Env.shift_by_zero_of_65536`).

Where an instruction stands in assembled code is said for any text that holds its line
(`slice_of_assemble`).
-/

namespace RegMachine

/-! ## Places in assembled code -/

theorem extentIn_append (before after : List LineContent) :
    extentIn (before ++ after) = extentIn before + extentIn after := by
  unfold extentIn
  rw [List.map_append, Layout.extent_append]

theorem extentIn_contents (f : Fragment) : extentIn f.contents = f.size := by
  unfold Fragment.size
  rw [extentIn_eq, Fragment.instructions_contents, List.map_map, ← Layout.extent_map_size]
  exact congrArg Layout.extent (List.map_congr_left fun i _ => i.length_mnemonic)

/-- **An instruction stands behind the instructions of the lines before its own**, in the
code of any text that holds it. -/
theorem slice_of_assemble {source : String} {o : ObjectCode} {before after : List LineContent}
    {m : Mnemonic} {operands : List String}
    (hholds : Holds source.toList (before ++ .instruction m operands :: after))
    (h : assemble source = .ok o) :
    ∃ layout index line code, Instruction.encode layout index ⟨line, m, operands⟩ = .ok code
      ∧ (o.code.drop (extentIn before)).take m.length = code := by
  obtain ⟨lines, layout, bytes, hlines, -, hbytes, rfl⟩ := assemble_eq_ok_iff.mp h
  obtain ⟨lines', hlines', hcontents⟩ := hholds 1
  cases hlines.symm.trans hlines'
  have hpairs := map_instructionsOf lines
  rw [hcontents, List.filterMap_append] at hpairs
  -- the instruction has as many before it as the lines before it hold
  let index := (before.filterMap LineContent.instruction?).length
  have hpair : ((instructionsOf lines).map fun i => (i.mnemonic, i.operands))[index]?
      = some (m, operands) := by
    rw [hpairs, List.getElem?_append_right (Nat.le_refl _), Nat.sub_self]
    rfl
  rw [List.getElem?_map, Option.map_eq_some_iff] at hpair
  obtain ⟨⟨line, m', operands'⟩, hins, hpair⟩ := hpair
  cases hpair
  obtain ⟨code, hcode, hslice⟩ := slice_of_encodeFrom hbytes hins
  have hextent : Layout.extent (((instructionsOf lines).map (·.mnemonic.length)).take index)
      = extentIn before := by
    have hlengths := congrArg (List.map fun p : Mnemonic × List String => p.1.length) hpairs
    rw [List.map_map, List.map_append] at hlengths
    rw [show (instructionsOf lines).map (·.mnemonic.length) = _ from hlengths,
      List.take_left' (List.length_map ..), extentIn_eq]
  rw [hextent] at hslice
  refine ⟨layout, 0 + index, line, code, hcode, ?_⟩
  have hvalues := congrArg (List.map CodeByte.value) hslice
  rw [List.map_take, List.map_drop, List.map_map,
    show CodeByte.value ∘ (fun b => (⟨b, line⟩ : CodeByte)) = id from rfl, List.map_id] at hvalues
  exact hvalues

/-! ## Immediate fields -/

/-- **The opcode and the immediate field of the word at an offset.** The field is the last
two bytes of the word, read as an unsigned number. -/
def ObjectCode.immediateAt? (o : ObjectCode) (offset : Nat) : Option (Opcode × Nat) :=
  match o.wordAt? offset with
  | some [op, _, high, low] => (Opcode.ofByte? op).map (·, high.toNat * 256 + low.toNat)
  | _ => none

/-- A half word is read back from its two bytes. -/
theorem toNat_halfWord (half : UInt16) :
    (half >>> 8).toUInt8.toNat * 256 + half.toUInt8.toNat = half.toNat := by
  have hlt := half.toNat_lt
  rw [UInt16.toNat_toUInt8, UInt16.toNat_toUInt8, UInt16.toNat_shiftRight,
    Nat.shiftRight_eq_div_pow]
  simp only [UInt16.reduceToNat, Nat.reduceMod, Nat.reducePow]
  omega

theorem ObjectCode.immediateAt?_of_slice {o : ObjectCode} {offset : Nat} {op : Opcode}
    {rd : UInt8} {half : UInt16}
    (h : (o.code.drop offset).take 4 = op.byte :: rd :: halfWord half) :
    o.immediateAt? offset = some (op, half.toNat) := by
  have hword : o.wordAt? offset = some (op.byte :: rd :: halfWord half) := by
    unfold wordAt?
    dsimp only
    rw [h]
    rfl
  unfold immediateAt?
  rw [hword]
  show (Opcode.ofByte? op.byte).map (·, (half >>> 8).toUInt8.toNat * 256 + half.toUInt8.toNat) = _
  rw [Opcode.ofByte?_byte, toNat_halfWord]
  rfl

/-- The lower half word of a number is the number modulo `2 ^ 16`. -/
theorem toNat_ofInt_half (value : Int) : ((UInt16.ofInt value).toNat : Int) = value % 65536 := by
  unfold UInt16.ofInt
  rw [UInt16.toNat_ofNat']
  omega

/-- **A shift by an amount stands at an offset**, cut to a half word: its field is the amount
modulo `2 ^ 16`, and thus the amount exactly if that is a half word. -/
def ObjectCode.ShiftsAt (o : ObjectCode) (offset : Nat) (shift : ShiftOp) (amount : Int64) :
    Prop :=
  ∃ field : Nat, o.immediateAt? offset = some (shift.opcode, field)
    ∧ (field : Int) = amount.toInt % 65536
    ∧ ((field : Int) = amount.toInt ↔ 0 ≤ amount.toInt ∧ amount.toInt < 65536)

/-- **A shift is encoded with its amount cut to a half word**, in any text that holds it. -/
theorem ObjectCode.shiftsAt_of_assemble {source : String} {o : ObjectCode}
    {before after : List LineContent} {shift : ShiftOp} {rd : Reg} {amount : Int64}
    (hholds : Holds source.toList
      (before ++ .instruction (Instr.shift shift rd amount).mnemonic
        (Instr.shift shift rd amount).operands :: after))
    (h : assemble source = .ok o) : o.ShiftsAt (extentIn before) shift amount := by
  obtain ⟨layout, index, line, code, hcode, hslice⟩ := slice_of_assemble hholds h
  have hbytes : Instruction.encode layout index ⟨line, (Instr.shift shift rd amount).mnemonic,
      (Instr.shift shift rd amount).operands⟩
        = .ok ((Instr.shift shift rd amount).bytes fun _ => 0) :=
    Instr.encode_eq _ nofun
  cases hcode.symm.trans hbytes
  rw [(Instr.shift shift rd amount).length_mnemonic] at hslice
  refine ⟨_, immediateAt?_of_slice hslice, toNat_ofInt_half _, ?_⟩
  rw [toNat_ofInt_half]
  omega

/-! ## Code of expressions in the runtime -/

/-- Code that names labels of memory routines only is assembled with the runtime. -/
theorem isOk_assemble_runtime {f : Fragment} (h : ∀ v, f.Uses v) (comments : Bool) :
    ∃ o, assemble (Template.render Template.base (f.render comments) "") = .ok o
      ∧ Holds (Template.render Template.base (f.render comments) "").toList
          (Runtime.frame f []) := by
  have hlegible : (Vocabulary.ofLabels []).Legible :=
    Vocabulary.legible_ofLabels (List.forall_mem_nil _)
  have hholds : Holds (Template.render Template.base (f.render comments) "").toList
      (Runtime.frame f []) :=
    @Template.holds_render f [] comments (hlegible.readable (h _))
      (hlegible.not_mem_render (h _) comments) (List.forall_mem_nil _)
  -- it may use a vocabulary without labels, so it defines none
  have hlabels : f.labels = [] := by
    let mute : Vocabulary := ⟨fun _ => False, fun _ => False, fun _ => False, False, False, nofun⟩
    refine List.eq_nil_iff_forall_not_mem.mpr fun name hname => ?_
    obtain ⟨item, hitem, hlabel⟩ := List.mem_filterMap.mp hname
    cases item with
    | label other => exact (h mute).items _ hitem
    | _ => exact nomatch hlabel
  have hsound : Sound (Runtime.frame f []) := Runtime.sound_frame (h _) .nil
  cases hassemble : assemble (Template.render Template.base (f.render comments) "") with
  | ok o => exact ⟨o, rfl, hholds⟩
  | error e =>
    obtain ⟨name, -, hcount⟩ := exists_duplicate_of_assemble hholds hsound hassemble
    have hnodup : ((Runtime.frame f []).filterMap LineContent.label?).Nodup := by
      rw [Runtime.labels_frame, hlabels]
      decide
    exact absurd hcount (Nat.not_lt.mpr (List.nodup_iff_count_le_one.mp hnodup name))

/-! ## Loads of shifts -/

namespace Env

variable {env : Env} {name : String} {expected : ValueType} {op : BinaryOp} {lhs rhs : Expr}
  {loaded : Loaded} {shift : ShiftOp} {amount : Int64}

/-- The code of a shift ends with the shift and a copy. -/
theorem code_of_shift (hload : env.load name expected (.binary op lhs rhs) = .ok loaded)
    (hop : op.lower = .shift shift) (hamount : rhs.literalValue? = some amount) :
    ∃ left : Fragment,
      loaded.code = left ++ [.instr (.shift shift .lhs amount), .mov .value .lhs] := by
  obtain ⟨-, left, -, hrest⟩ := arithmetic_eq_ok_iff.mp hload
  obtain ⟨shift', amount', hlower, hamount', rfl⟩ | ⟨alu, right, hlower, -, -⟩ := hrest
  · cases hop.symm.trans hlower
    cases hamount.symm.trans hamount'
    exact ⟨left, rfl⟩
  · exact nomatch hop.symm.trans hlower

/-- The shift stands two words before the end of its code, wherever the code is assembled. -/
theorem shiftsAt_of_load (hload : env.load name expected (.binary op lhs rhs) = .ok loaded)
    (hop : op.lower = .shift shift) (hamount : rhs.literalValue? = some amount)
    {source : String} {before after : List LineContent} {o : ObjectCode}
    (hholds : Holds source.toList (before ++ loaded.code.contents ++ after))
    (h : assemble source = .ok o) :
    o.ShiftsAt (extentIn before + loaded.code.size - 8) shift amount := by
  obtain ⟨left, hcode⟩ := code_of_shift hload hop hamount
  have hcontents : loaded.code.contents = left.contents
      ++ [.instruction (Instr.shift shift .lhs amount).mnemonic
          (Instr.shift shift .lhs amount).operands,
        .instruction (Instr.mov .value .lhs).mnemonic (Instr.mov .value .lhs).operands] := by
    rw [hcode]
    exact List.filterMap_append
  have hsize : extentIn before + loaded.code.size - 8 = extentIn (before ++ left.contents) := by
    rw [← extentIn_contents, hcontents, extentIn_append, extentIn_append]
    cases shift <;> rfl
  rw [hcontents, ← List.append_assoc, List.append_assoc] at hholds
  rw [hsize]
  exact ObjectCode.shiftsAt_of_assemble hholds h

/-- The code of a shift is assembled with the runtime. -/
theorem shiftsAt_runtime (hload : env.load name expected (.binary op lhs rhs) = .ok loaded)
    (hop : op.lower = .shift shift) (hamount : rhs.literalValue? = some amount)
    (comments : Bool) :
    ∃ o, assemble (Template.render Template.base (loaded.code.render comments) "") = .ok o
      ∧ o.ShiftsAt (loaded.code.size - 8) shift amount := by
  obtain ⟨o, ho, hholds⟩ := isOk_assemble_runtime (fun v => uses_load hload) comments
  -- the body follows the entry of the frame, which is no instruction
  have hshift : o.ShiftsAt (extentIn [.label "start"] + loaded.code.size - 8) shift amount :=
    shiftsAt_of_load hload hop hamount hholds ho
  rw [show extentIn [.label "start"] = 0 from rfl, Nat.zero_add] at hshift
  exact ⟨o, ho, hshift⟩

/-- **The amount of a shift in assembled code.** A shift by a literal that is loaded is
assembled: with the memory routines of the runtime around it the assembler accepts the text,
and in every text that holds its code and is accepted, the shift instruction stands two words
before the end of that code. Its field holds the amount modulo `2 ^ 16`, which is the amount
exactly if that is a half word. -/
theorem immediate_of_shift (env : Env) (name : String) (expected : ValueType) (op : BinaryOp)
    (lhs rhs : Expr) (loaded : Loaded) (shift : ShiftOp) (amount : Int64)
    (hload : env.load name expected (.binary op lhs rhs) = .ok loaded)
    (hop : op.lower = .shift shift) (hamount : rhs.literalValue? = some amount) :
    (∀ comments, ∃ o,
        assemble (Template.render Template.base (loaded.code.render comments) "") = .ok o
        ∧ o.ShiftsAt (loaded.code.size - 8) shift amount)
      ∧ ∀ (source : String) (before after : List LineContent) (o : ObjectCode),
        Holds source.toList (before ++ loaded.code.contents ++ after) → assemble source = .ok o →
        o.ShiftsAt (extentIn before + loaded.code.size - 8) shift amount := by
  constructor
  · exact shiftsAt_runtime hload hop hamount
  · intro source before after o hholds h
    exact shiftsAt_of_load hload hop hamount hholds h

/-- The amount may be any literal: an element that is picked by a variable is shifted by a
negative number, and the field holds the greatest half word. -/
theorem immediate_of_shift_negative :
    ∃ loaded, pointedElement.load "y" (.scalar .char)
        (.binary .shiftRight (.index "xs" (.ident "i")) (.int (-1))) = .ok loaded
      ∧ ∀ comments, ∃ o,
        assemble (Template.render Template.base (loaded.code.render comments) "") = .ok o
          ∧ o.immediateAt? (loaded.code.size - 8) = some (.rsh, 65535) := by
  refine ⟨_, rfl, fun comments => ?_⟩
  obtain ⟨o, ho, field, hfield, hmod, -⟩ := (immediate_of_shift pointedElement "y" (.scalar .char)
    .shiftRight (.index "xs" (.ident "i")) (.int (-1)) _ .right (-1) rfl rfl rfl).1 comments
  obtain rfl : field = 65535 := Int.ofNat_inj.mp hmod
  exact ⟨o, ho, hfield⟩

/-- **A shift by 65536 is assembled as a shift by nothing.** -/
theorem shift_by_zero_of_65536 :
    ∃ loaded o,
      Env.load ⟨∅, 1⟩ "y" (.scalar .int) (.binary .shiftLeft (.int 1) (.int 65536)) = .ok loaded
      ∧ assemble (Template.render Template.base (loaded.code.render false) "") = .ok o
      ∧ o.immediateAt? (loaded.code.size - 8) = some (.lsh, 0) := by
  have hload : Env.load ⟨∅, 1⟩ "y" (.scalar .int)
      (.binary .shiftLeft (.int 1) (.int 65536)) = .ok _ := rfl
  obtain ⟨o, ho, field, hfield, hmod, -⟩ := shiftsAt_runtime hload rfl rfl false
  obtain rfl : field = 0 := Int.ofNat_inj.mp hmod
  exact ⟨_, o, hload, ho, hfield⟩

end Env

end RegMachine
