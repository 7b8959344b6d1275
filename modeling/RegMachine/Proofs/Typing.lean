import RegMachine.Proofs.Evaluation

/-!
# Typed loads and types of expressions

An expression has a type of its own, `Env.operandType`, and `Env.load` is told the type
that its destination expects. Every load of an atomic expression compares the two, so
that it is accepted at its own type only.

A load of an operator does not compare them. Its operands are each loaded at a type of
their own, and of the type expected only the cell is looked at, and only to check that
literal operands fit in it. So an operator is accepted at every type but a list's whose
cell has room for its literals, with the same code each time, whatever its own type is
(`Env.own_type_of_load`). `Env.load_charSum_as_int` is the least such load: a character
is taken for an integer because one is added to it.
-/

namespace RegMachine

/-- A shift is carried out by a shift instruction. -/
theorem BinaryOp.isShift_of_lower {op : BinaryOp} {shift : ShiftOp}
    (h : op.lower = .shift shift) : op.isShift = true := by
  cases op <;> cases h <;> rfl

/-- Any other operator is carried out by an instruction on two registers. -/
theorem BinaryOp.not_isShift_of_lower {op : BinaryOp} {alu : AluOp}
    (h : op.lower = .alu alu) : op.isShift = false := by
  cases op <;> cases h <;> rfl

/-- **The literals of an expression that have to fit in its destination.** They are the
literal operands of an operator, but not the amount of a shift. -/
def Expr.checkedLiterals : Expr → List Int64
  | binary op lhs rhs =>
    lhs.literalValue?.toList ++ if op.isShift then [] else rhs.literalValue?.toList
  | _ => []

namespace Env

variable {env : Env} {name : String} {expected : ValueType} {e : Expr} {loaded : Loaded}

theorem checkFits_eq_ok_iff {ty : Scalar} {value : Int64} {u : Unit} :
    env.checkFits name ty value = .ok u ↔ ty.fits value.toInt = true := by
  unfold checkFits
  split
  next h => simp [h]
  next h => simp [h, fail]

/-! ## Atomic expressions -/

/-- **A load at the type of the expression**: the result has the type expected, which is a
single cell's and the expression's own. -/
structure LoadsOwn (env : Env) (expected : ValueType) (e : Expr) (loaded : Loaded) : Prop where
  type : loaded.type = expected
  not_list : expected.isList = false
  own : env.operandType e = .ok expected

theorem loadsOwn_loadLiteral {found : Scalar} {value : Int64}
    (hown : env.operandType e = .ok (.scalar found))
    (h : env.loadLiteral name expected found value = .ok loaded) :
    env.LoadsOwn expected e loaded := by
  unfold loadLiteral at h
  split at h
  next hexpected =>
    obtain ⟨_, -, h⟩ := bind_eq_ok_iff.mp h
    cases h
    exact ⟨rfl, hexpected ▸ rfl, hexpected ▸ hown⟩
  next => exact nomatch h

theorem loadsOwn_loadVariable {source : String}
    (h : env.loadVariable name expected source = .ok loaded) :
    env.LoadsOwn expected (.ident source) loaded := by
  obtain ⟨v, hv, h⟩ := bind_eq_ok_iff.mp h
  split at h
  next hscalar =>
    cases h
    refine ⟨rfl, hscalar.1 ▸ hscalar.2, ?_⟩
    exact bind_eq_ok_iff.mpr ⟨v, hv, congrArg Except.ok hscalar.1⟩
  next => exact nomatch h

theorem loadsOwn_loadElement {list : String} {index : Expr}
    (h : env.loadElement name expected list index = .ok loaded) :
    env.LoadsOwn expected (.index list index) loaded := by
  obtain ⟨v, hv, h⟩ := bind_eq_ok_iff.mp h
  split at h
  next element len htype =>
    split at h
    next hexpected =>
      have hown : env.operandType (.index list index) = .ok expected := by
        refine bind_eq_ok_iff.mpr ⟨v, hv, ?_⟩
        rw [htype, hexpected]
        rfl
      have hlist : expected.isList = false := hexpected ▸ rfl
      -- the two ways to find the element differ in their code only
      split at h
      all_goals
        obtain ⟨_, -, h⟩ := bind_eq_ok_iff.mp h
        cases h
        exact ⟨rfl, hlist, hown⟩
    next => exact nomatch h
  next => exact nomatch h

theorem loadsOwn_loadAddress {target : String}
    (h : env.loadAddress name expected target = .ok loaded) :
    env.LoadsOwn expected (.addressOf target) loaded := by
  obtain ⟨v, hv, h⟩ := bind_eq_ok_iff.mp h
  split at h
  next hexpected =>
    cases h
    refine ⟨rfl, hexpected ▸ rfl, ?_⟩
    exact bind_eq_ok_iff.mpr ⟨v, hv, congrArg Except.ok hexpected.symm⟩
  next => exact nomatch h

theorem loadsOwn_loadTarget {pointer : String}
    (h : env.loadTarget name expected pointer = .ok loaded) :
    env.LoadsOwn expected (.deref pointer) loaded := by
  obtain ⟨v, hv, h⟩ := bind_eq_ok_iff.mp h
  split at h
  next target htype =>
    split at h
    next hexpected =>
      cases h
      refine ⟨rfl, hexpected ▸ rfl, ?_⟩
      refine bind_eq_ok_iff.mpr ⟨v, hv, ?_⟩
      rw [htype, hexpected]
      rfl
    next => exact nomatch h
  next => exact nomatch h

/-- **An atomic expression is loaded at its own type only.** -/
theorem loadsOwn_loadAtom (h : env.loadAtom name expected e = .ok loaded) :
    env.LoadsOwn expected e loaded := by
  cases e with
  | int value => exact loadsOwn_loadLiteral rfl h
  | hex value => exact loadsOwn_loadLiteral rfl h
  | char code => exact loadsOwn_loadLiteral rfl h
  | str text =>
    rw [loadAtom] at h
    split at h
    next code hbytes =>
      -- a string of one byte is the character
      refine loadsOwn_loadLiteral ?_ h
      rw [operandType, hbytes]
    next => cases h
  | ident source => exact loadsOwn_loadVariable h
  | index list index => exact loadsOwn_loadElement h
  | addressOf target => exact loadsOwn_loadAddress h
  | deref pointer => exact loadsOwn_loadTarget h
  | list | binary => cases h

/-! ## Operators -/

/-- An operand has a type of its own, which is a single cell's. -/
theorem own_type_of_loadInto {cell : Scalar} {rd : Reg} {code : Fragment}
    (h : env.loadInto name cell rd e = .ok code) :
    ∃ own, env.operandType e = .ok own ∧ own.isList = false := by
  unfold loadInto at h
  split at h
  next => exact nomatch h
  next => exact nomatch h
  next =>
    split at h
    next value hvalue =>
      cases e with
      | int value => exact ⟨.scalar .int, rfl, rfl⟩
      | hex value => exact ⟨.scalar .hex, rfl, rfl⟩
      | char code => exact ⟨.scalar .char, rfl, rfl⟩
      | _ => exact nomatch hvalue
    next =>
      obtain ⟨own, hown, h⟩ := bind_eq_ok_iff.mp h
      split at h
      next => exact nomatch h
      next hlist => exact ⟨own, hown, Bool.eq_false_iff.mpr hlist⟩

/-- A literal operand fits in the cell it is loaded for. -/
theorem fits_of_loadInto {cell : Scalar} {rd : Reg} {code : Fragment}
    (h : env.loadInto name cell rd e = .ok code) :
    ∀ value ∈ e.literalValue?.toList, cell.fits value.toInt = true := by
  unfold loadInto at h
  split at h
  next => exact nomatch h
  next => exact nomatch h
  next =>
    intro value hvalue
    rw [Option.mem_toList.mp hvalue] at h
    obtain ⟨_, hfits, -⟩ := bind_eq_ok_iff.mp h
    exact checkFits_eq_ok_iff.mp hfits

/-- **An operand is loaded the same way for every cell**, as long as it fits there if it is
a literal. -/
theorem loadInto_of_fits {cell cell' : Scalar} {rd : Reg} {code : Fragment}
    (h : env.loadInto name cell rd e = .ok code)
    (hfits : ∀ value ∈ e.literalValue?.toList, cell'.fits value.toInt = true) :
    env.loadInto name cell' rd e = .ok code := by
  unfold loadInto at h ⊢
  split at h
  next => exact nomatch h
  next => exact nomatch h
  next =>
    split at h
    next value hvalue =>
      obtain ⟨_, -, h⟩ := bind_eq_ok_iff.mp h
      rw [hvalue] at hfits
      refine bind_eq_ok_iff.mpr ⟨(), checkFits_eq_ok_iff.mpr (hfits value ?_), h⟩
      exact List.mem_singleton_self value
    next =>
      -- from here on the cell is named in a fault only
      obtain ⟨own, hown, h⟩ := bind_eq_ok_iff.mp h
      refine bind_eq_ok_iff.mpr ⟨own, hown, ?_⟩
      split at h
      next => exact nomatch h
      next hlist => rwa [if_neg hlist]

/-- **What is loaded for an operator**: its left operand, and then the instruction with its
amount, or the right operand and then the instruction on both. -/
theorem arithmetic_eq_ok_iff {op : BinaryOp} {lhs rhs : Expr} :
    env.arithmetic name expected op lhs rhs = .ok loaded
      ↔ expected.isList = false ∧ ∃ left, env.loadInto name expected.cell .lhs lhs = .ok left
        ∧ ((∃ shift amount, op.lower = .shift shift ∧ rhs.literalValue? = some amount
            ∧ loaded = ⟨left ++ [.instr (.shift shift .lhs amount), .mov .value .lhs], expected,
              .computed⟩)
          ∨ ∃ alu right, op.lower = .alu alu
            ∧ env.loadInto name expected.cell .rhs rhs = .ok right
            ∧ loaded = ⟨left ++ right ++ [.instr (.alu alu .lhs .lhs .rhs), .mov .value .lhs],
              expected, .computed⟩) := by
  unfold arithmetic
  constructor
  · intro h
    split at h
    next =>
      obtain ⟨_, -, h⟩ := bind_eq_ok_iff.mp h
      exact nomatch h
    next hlist =>
      obtain ⟨left, hleft, h⟩ := bind_eq_ok_iff.mp h
      refine ⟨Bool.eq_false_iff.mpr hlist, left, hleft, ?_⟩
      split at h
      next shift hlower =>
        split at h
        next amount hamount =>
          cases h
          exact .inl ⟨shift, amount, hlower, hamount, rfl⟩
        next => exact nomatch h
      next alu hlower =>
        obtain ⟨right, hright, h⟩ := bind_eq_ok_iff.mp h
        cases h
        exact .inr ⟨alu, right, hlower, hright, rfl⟩
  · rintro ⟨hlist, left, hleft, hrest⟩
    rw [if_neg (Bool.eq_false_iff.mp hlist)]
    refine bind_eq_ok_iff.mpr ⟨left, hleft, ?_⟩
    obtain ⟨shift, amount, hlower, hamount, rfl⟩ | ⟨alu, right, hlower, hright, rfl⟩ := hrest
    · rw [hlower, hamount]
      rfl
    · rw [hlower]
      exact bind_eq_ok_iff.mpr ⟨right, hright, rfl⟩

/-- The literals of an operator that is loaded fit in the cell of the type expected. -/
theorem fits_of_arithmetic {op : BinaryOp} {lhs rhs : Expr}
    (h : env.arithmetic name expected op lhs rhs = .ok loaded) :
    ∀ value ∈ (Expr.binary op lhs rhs).checkedLiterals,
      expected.cell.fits value.toInt = true := by
  obtain ⟨-, left, hleft, hrest⟩ := arithmetic_eq_ok_iff.mp h
  refine List.forall_mem_append.mpr ⟨fits_of_loadInto hleft, ?_⟩
  obtain ⟨shift, amount, hlower, -, -⟩ | ⟨alu, right, hlower, hright, -⟩ := hrest
  · rw [if_pos (BinaryOp.isShift_of_lower hlower)]
    exact List.forall_mem_nil _
  · rw [if_neg (Bool.eq_false_iff.mp (BinaryOp.not_isShift_of_lower hlower))]
    exact fits_of_loadInto hright

/-- **An operator is loaded the same way at every type**, as long as its literals fit in
the cell of the type. -/
theorem arithmetic_of_fits {op : BinaryOp} {lhs rhs : Expr} {other : ValueType}
    (h : env.arithmetic name expected op lhs rhs = .ok loaded) (hother : other.isList = false)
    (hfits : ∀ value ∈ (Expr.binary op lhs rhs).checkedLiterals,
      other.cell.fits value.toInt = true) :
    env.arithmetic name other op lhs rhs = .ok { loaded with type := other } := by
  obtain ⟨-, left, hleft, hrest⟩ := arithmetic_eq_ok_iff.mp h
  obtain ⟨hfitsLeft, hfitsRight⟩ := List.forall_mem_append.mp hfits
  refine arithmetic_eq_ok_iff.mpr ⟨hother, left, loadInto_of_fits hleft hfitsLeft, ?_⟩
  obtain ⟨shift, amount, hlower, hamount, rfl⟩ | ⟨alu, right, hlower, hright, rfl⟩ := hrest
  · exact .inl ⟨shift, amount, hlower, hamount, rfl⟩
  · rw [if_neg (Bool.eq_false_iff.mp (BinaryOp.not_isShift_of_lower hlower))] at hfitsRight
    exact .inr ⟨alu, right, hlower, loadInto_of_fits hright hfitsRight, rfl⟩

/-! ## Loads -/

/-- Any expression but an operator is loaded at its own type only. -/
theorem loadsOwn_load (h : env.load name expected e = .ok loaded) (hform : e.form ≠ .binary) :
    env.LoadsOwn expected e loaded := by
  unfold load at h
  split at h
  next => exact absurd rfl hform
  next =>
    obtain ⟨_, -, h⟩ := bind_eq_ok_iff.mp h
    exact nomatch h
  next => exact loadsOwn_loadAtom h

/-- **The type of what is loaded.** The result of a load has the type expected, and both this
type and the expression's own are a single cell's. They are the same type unless the
expression is an operator. An operator has the type of its left operand, which nothing
compares with the type expected: what was loaded at one type is loaded at any other, with
the same code, exactly if the literals of the operator fit in the cell of that type. -/
theorem own_type_of_load (env : Env) (name : String) (expected : ValueType) (e : Expr)
    (loaded : Loaded) (h : env.load name expected e = .ok loaded) :
    loaded.type = expected ∧ expected.isList = false
      ∧ ∃ own, env.operandType e = .ok own ∧ own.isList = false
        ∧ (e.form ≠ .binary → own = expected)
        ∧ (e.form = .binary → ∀ other : ValueType, other.isList = false →
          (env.load name other e = .ok { loaded with type := other }
            ↔ ∀ value ∈ e.checkedLiterals, other.cell.fits value.toInt = true)) := by
  by_cases hform : e.form = .binary
  · cases e with
    | binary op lhs rhs =>
      obtain ⟨hlist, left, hleft, hrest⟩ := arithmetic_eq_ok_iff.mp h
      obtain ⟨own, hown, hownList⟩ := own_type_of_loadInto hleft
      refine ⟨?_, hlist, own, hown, hownList, fun hne => absurd hform hne, ?_⟩
      · obtain ⟨shift, amount, -, -, rfl⟩ | ⟨alu, right, -, -, rfl⟩ := hrest <;> rfl
      · exact fun _ other hother => ⟨fits_of_arithmetic, arithmetic_of_fits h hother⟩
    | _ => exact nomatch hform
  · obtain ⟨htype, hlist, hown⟩ := loadsOwn_load h hform
    exact ⟨htype, hlist, expected, hown, hlist, fun _ => rfl, fun heq => absurd heq hform⟩

/-- A character and a pointer to one. -/
def pointedChar : Env where
  vars := ((∅ : Table Variable).insert "c" ⟨0x100, .scalar .char, .zeroed⟩).insert "p"
    ⟨0x104, .pointer .char, .zeroed⟩
  line := 1

/-- A number that is no character is added to a character: the sum is loaded as an integer or
as a pointer, but not at its own type. -/
theorem own_type_of_load_wideSum :
    ∃ loaded,
      pointedChar.load "y" (.scalar .int) (.binary .add (.deref "p") (.int 300)) = .ok loaded
      ∧ pointedChar.operandType (.binary .add (.deref "p") (.int 300)) = .ok (.scalar .char)
      ∧ pointedChar.load "y" (.pointer .hex) (.binary .add (.deref "p") (.int 300))
        = .ok { loaded with type := .pointer .hex }
      ∧ pointedChar.load "y" (.scalar .char) (.binary .add (.deref "p") (.int 300))
        ≠ .ok { loaded with type := .scalar .char } := by
  refine ⟨_, rfl, rfl, ?_⟩
  obtain ⟨-, -, own, -, -, -, hother⟩ := own_type_of_load pointedChar "y" (.scalar .int)
    (.binary .add (.deref "p") (.int 300)) _ rfl
  refine ⟨(hother rfl (.pointer .hex) rfl).mpr (List.forall_mem_singleton.mpr rfl), fun h => ?_⟩
  exact nomatch List.forall_mem_singleton.mp ((hother rfl (.scalar .char) rfl).mp h)

/-- **An operator on a character is loaded as an integer**: a load that succeeds does not
show that the expression has the type expected. -/
theorem load_charSum_as_int :
    ¬ ∀ (env : Env) (name : String) (expected : ValueType) (e : Expr) (loaded : Loaded),
      env.load name expected e = .ok loaded → env.operandType e = .ok expected := by
  intro h
  have hown := h pointedChar "y" (.scalar .int) (.binary .add (.ident "c") (.int 1)) _ rfl
  exact absurd hown (by decide)

end Env

end RegMachine
