import RegMachine.Proofs.Edits
import RegMachine.Proofs.Embedding

/-!
# What generated code is written with

Generated code is put together from few kinds of items. A *vocabulary* says
which labels its instructions may name, which labels it may define, what its
comments may be written with, and whether there may be embedded lines; a
fragment *uses* a vocabulary if all its items are allowed by it. Since every
statement's code is a chain of pieces, using a vocabulary is kept by appending,
and it is enough to look at the pieces.

Beside its items, one thing about a fragment as a whole is kept by appending:
its forward references are those of calls, each inside the sequence that it
belongs to (`Fragment.Sequenced`). So none reaches beyond the instructions of its
own piece (`Settled`).

This module covers the pieces without blocks: expressions, stores, calls, and
the simple statements. They define no label and name no label but those of
memory routines and of the functions in sight.
-/

namespace RegMachine

/-! ## Plain parts of comments -/

/-- The tag of an expression in comments is one of a few fixed words. -/
theorem Expr.isPlain_tag (e : Expr) : Text.IsPlain e.tag := by
  unfold Expr.tag
  cases e.form <;> decide

theorem Scalar.isPlain_name (ty : Scalar) : Text.IsPlain ty.name := by
  cases ty <;> decide

theorem ValueType.isPlain_text (ty : ValueType) : Text.IsPlain ty.text := by
  cases ty with
  | scalar ty => exact ty.isPlain_name
  | pointer target => exact .append target.isPlain_name (by decide)
  | list element len =>
    exact .append (.append (.append (.append (by decide) element.isPlain_name) (by decide))
      (.decimal len)) (by decide)

theorem Comparison.isPlain_text (op : Comparison) : Text.IsPlain op.text := by
  cases op <;> decide

/-- A condition is commented with the tags of its sides and its operator. -/
theorem Condition.isPlain_comment (cond : Condition) : Text.IsPlain cond.comment :=
  .append (.append (.append (.append (.append (by decide) cond.lhs.isPlain_tag) (by decide))
    cond.op.isPlain_text) (by decide)) cond.rhs.isPlain_tag

/-- Brackets and digits are plain. -/
theorem isPlain_elementName {list : String} (h : Text.IsPlain list) (index : Nat) :
    Text.IsPlain (elementName list index) :=
  .append (.append (.append h (by decide)) (.decimal index)) (by decide)

/-! ## Forward references -/

/-- **Forward references stay inside**: each is a word of 64 bits and skips no
more instructions than follow it. -/
def Settled : List Instr → Prop
  | [] => True
  | i :: rest =>
    (∀ distance, i.forward? = some distance →
      distance < UInt64.size ∧ max distance 1 - 1 ≤ rest.length) ∧ Settled rest

/-- What follows a reference is only ever more in the whole. -/
theorem Settled.append {is js : List Instr} (his : Settled is) (hjs : Settled js) :
    Settled (is ++ js) := by
  induction is with
  | nil => exact hjs
  | cons i is ih =>
    rw [List.cons_append]
    refine ⟨fun distance hdistance => ?_, ih his.2⟩
    obtain ⟨hlt, hle⟩ := his.1 distance hdistance
    rw [List.length_append]
    exact ⟨hlt, Nat.le_trans hle (Nat.le_add_right _ _)⟩

/-! ## Calls -/

/-- **What is called**: a memory routine, or a function by its label. -/
inductive Call where
  | routine (r : Routine)
  | function (label : String)
deriving DecidableEq

namespace Call

/-- The label that is jumped to. -/
def label : Call → String
  | routine r => r.label
  | function label => label

/-- **The sequence of a call**: the address behind it and the label are loaded,
then it jumps. -/
def code : Call → Fragment
  | routine r => Fragment.callRoutine r
  | function label => [.ldr .ret (.forward 3), .ldr .call (.label label), .jpr .call]

/-- The first instruction of a call skips the other two. -/
theorem settled_code (c : Call) : Settled c.code.instructions := by
  cases c with
  | routine r =>
    refine ⟨nofun, ?_, nofun, trivial⟩
    rintro distance ⟨⟩
    decide
  | function label =>
    refine ⟨?_, nofun, nofun, trivial⟩
    rintro distance ⟨⟩
    exact ⟨by decide, Nat.le_refl 2⟩

end Call

/-- The distance of the forward reference of an item, if it has one. -/
def Item.forward? (item : Item) : Option Nat := item.instr?.bind Instr.forward?

/-- **All forward references are those of calls**: a fragment is a chain of the
sequences of calls and of items without forward references. -/
inductive Fragment.Sequenced : Fragment → Prop
  | nil : Sequenced []
  | cons {item : Item} {f : Fragment} (h : item.forward? = none) (hf : Sequenced f) :
      Sequenced (item :: f)
  | call (c : Call) {f : Fragment} (hf : Sequenced f) : Sequenced (c.code ++ f)

namespace Fragment.Sequenced

variable {f g : Fragment}

/-- The second part continues the chain of the first. -/
protected theorem append (hf : Sequenced f) (hg : Sequenced g) : Sequenced (f ++ g) := by
  induction hf with
  | nil => exact hg
  | cons h _ ih => exact .cons h ih
  | call c _ ih =>
    rw [List.append_assoc]
    exact .call c ih

/-- **In a chain of calls references are settled**: each is inside its own call. -/
theorem settled (h : Sequenced f) : Settled f.instructions := by
  induction h with
  | nil => trivial
  | @cons item f h _ ih =>
    cases item with
    | instr i =>
      refine ⟨fun distance hdistance => ?_, ih⟩
      exact absurd (hdistance.symm.trans h) (Option.some_ne_none distance)
    | label | comment | raw => exact ih
  | call c _ ih =>
    rw [Fragment.instructions, List.filterMap_append]
    exact c.settled_code.append ih

end Fragment.Sequenced

/-! ## Vocabularies -/

/-- **A vocabulary.** Beside its targets, instructions may always name the labels of
memory routines. -/
structure Vocabulary where
  /-- The labels that instructions may name. -/
  target : String → Prop
  /-- The labels that may be defined. -/
  label : String → Prop
  /-- The names that may be declared. -/
  name : String → Prop
  /-- Comments are plain text. -/
  plain : Prop
  /-- Lines may be embedded. -/
  embeds : Prop
  isPlain_name : plain → ∀ n, name n → Text.IsPlain n

/-- **An item uses a vocabulary.** -/
def Item.Uses (v : Vocabulary) : Item → Prop
  | instr i => ∀ name, i.label? = some name →
    v.target name ∨ ∃ r : Routine, name = r.label
  | label name => v.label name
  | comment text => v.plain → Text.IsPlain text
  | raw text => v.embeds ∧ Text.IsLine text.toList

/-- **A fragment uses a vocabulary**, and its forward references are those of
calls. -/
structure Fragment.Uses (v : Vocabulary) (f : Fragment) : Prop where
  items : ∀ item ∈ f, item.Uses v
  sequenced : f.Sequenced

namespace Fragment.Uses

variable {v : Vocabulary} {f g : Fragment}

protected theorem nil : Uses v [] := ⟨List.forall_mem_nil _, .nil⟩

/-- **Using a vocabulary is kept by appending.** -/
protected theorem append (hf : Uses v f) (hg : Uses v g) : Uses v (f ++ g) :=
  ⟨List.forall_mem_append.mpr ⟨hf.items, hg.items⟩, hf.sequenced.append hg.sequenced⟩

theorem settled (h : Uses v f) : Settled f.instructions := h.sequenced.settled

theorem item_cons {item : Item} (hforward : item.forward? = none) (hitem : item.Uses v)
    (hf : Uses v f) : Uses v (item :: f) :=
  ⟨List.forall_mem_cons.mpr ⟨hitem, hf.items⟩, .cons hforward hf.sequenced⟩

/-- An instruction that refers to no place goes in front. -/
theorem instr_cons {i : Instr} (hlabel : i.label? = none) (hforward : i.forward? = none)
    (hf : Uses v f) : Uses v (.instr i :: f) := by
  refine .item_cons hforward (fun name hname => ?_) hf
  rw [hlabel] at hname
  exact absurd hname (Option.some_ne_none name).symm

/-- A label may be loaded if it may be named. -/
theorem ldr_label_cons {name : String} (h : v.target name) (rd : Reg) (hf : Uses v f) :
    Uses v (.ldr rd (.label name) :: f) := by
  refine .item_cons rfl ?_ hf
  rintro other ⟨⟩
  exact .inl h

theorem label_cons {name : String} (h : v.label name) (hf : Uses v f) :
    Uses v (.label name :: f) :=
  .item_cons rfl h hf

/-- The text of a comment matters only where comments are to be plain. -/
theorem comment_cons {text : String} (h : v.plain → Text.IsPlain text) (hf : Uses v f) :
    Uses v (.comment text :: f) :=
  .item_cons rfl h hf

/-- Lines may be embedded where that is allowed. -/
theorem of_raw (hembeds : v.embeds)
    (h : ∀ item ∈ f, ∃ text, item = .raw text ∧ Text.IsLine text.toList) : Uses v f := by
  induction f with
  | nil => exact .nil
  | cons item f ih =>
    obtain ⟨⟨text, rfl, htext⟩, hf⟩ := List.forall_mem_cons.mp h
    exact .item_cons rfl ⟨hembeds, htext⟩ (ih hf)

/-- **The sequence of a call uses a vocabulary** if the label may be named. -/
theorem call {c : Call} (h : ∀ label, c = .function label → v.target label) : Uses v c.code := by
  refine ⟨?_, List.append_nil c.code ▸ .call c .nil⟩
  cases c with
  | routine r =>
    refine List.forall_mem_cons.mpr ⟨?_, List.forall_mem_cons.mpr ⟨nofun,
      List.forall_mem_cons.mpr ⟨nofun, List.forall_mem_nil _⟩⟩⟩
    rintro name ⟨⟩
    exact .inr ⟨r, rfl⟩
  | function label =>
    refine List.forall_mem_cons.mpr ⟨nofun, List.forall_mem_cons.mpr ⟨?_,
      List.forall_mem_cons.mpr ⟨nofun, List.forall_mem_nil _⟩⟩⟩
    rintro name ⟨⟩
    exact .inl (h label rfl)

/-! ### Memory sequences -/

theorem callRoutine (r : Routine) : Uses v (Fragment.callRoutine r) :=
  call (c := .routine r) nofun

theorem storeTo (address : UInt32) (width : Width) : Uses v (Fragment.storeTo address width) :=
  .instr_cons rfl rfl (.callRoutine _)

theorem loadFrom (address : UInt32) (width : Width) : Uses v (Fragment.loadFrom address width) :=
  .instr_cons rfl rfl (.callRoutine _)

theorem storeZero (address : UInt32) (width : Width) :
    Uses v (Fragment.storeZero address width) :=
  .instr_cons rfl rfl (.storeTo address width)

/-- A literal is loaded by one instruction, whichever way it is written. -/
theorem loadLiteral_cons (rd : Reg) (value : Int64) (hex : Bool) (hf : Uses v f) :
    Uses v (.loadLiteral rd value hex :: f) := by
  unfold Item.loadLiteral
  split
  · exact .instr_cons rfl rfl hf
  · exact .instr_cons rfl rfl hf

end Fragment.Uses

/-! ## Expressions -/

namespace Env

open Fragment (Uses)

variable {v : Vocabulary} {env : Env} {name : String} {expected : ValueType} {loaded : Loaded}

/-- The pointer to an element is computed from the index, which is loaded from its cell.
-/
theorem uses_elementPointer {base : UInt32} {element : Scalar} {index : Expr} {code : Fragment}
    (h : env.elementPointer name base element index = .ok code) : Uses v code := by
  unfold elementPointer at h
  split at h
  · obtain ⟨w, -, h⟩ := bind_eq_ok_iff.mp h
    split at h
    · exact nomatch h
    · cases h
      exact .append (.loadFrom _ _)
        (.instr_cons rfl rfl (.instr_cons rfl rfl (.instr_cons rfl rfl .nil)))
  · exact nomatch h

theorem uses_loadLiteral {found : Scalar} {value : Int64}
    (h : env.loadLiteral name expected found value = .ok loaded) : Uses v loaded.code := by
  unfold loadLiteral at h
  split at h
  · obtain ⟨_, -, h⟩ := bind_eq_ok_iff.mp h
    cases h
    exact .loadLiteral_cons _ _ _ .nil
  · exact nomatch h

theorem uses_loadVariable {source : String}
    (h : env.loadVariable name expected source = .ok loaded) : Uses v loaded.code := by
  obtain ⟨w, -, h⟩ := bind_eq_ok_iff.mp h
  split at h
  · cases h
    exact .loadFrom _ _
  · exact nomatch h

/-- An element is loaded from its cell, or by a routine through a computed pointer. -/
theorem uses_loadElement {list : String} {index : Expr}
    (h : env.loadElement name expected list index = .ok loaded) : Uses v loaded.code := by
  obtain ⟨w, -, h⟩ := bind_eq_ok_iff.mp h
  split at h
  · split at h
    · split at h
      · obtain ⟨address, -, h⟩ := bind_eq_ok_iff.mp h
        cases h
        exact .loadFrom _ _
      · obtain ⟨pointer, hpointer, h⟩ := bind_eq_ok_iff.mp h
        cases h
        exact .append (uses_elementPointer hpointer) (.instr_cons rfl rfl (.callRoutine _))
    · exact nomatch h
  · exact nomatch h

theorem uses_loadAddress {target : String}
    (h : env.loadAddress name expected target = .ok loaded) : Uses v loaded.code := by
  obtain ⟨w, -, h⟩ := bind_eq_ok_iff.mp h
  split at h
  · cases h
    exact .instr_cons rfl rfl .nil
  · exact nomatch h

/-- What is pointed at is loaded by a routine, behind the pointer. -/
theorem uses_loadTarget {pointer : String}
    (h : env.loadTarget name expected pointer = .ok loaded) : Uses v loaded.code := by
  obtain ⟨w, -, h⟩ := bind_eq_ok_iff.mp h
  split at h
  · split at h
    · cases h
      exact .append (.loadFrom _ _) (.instr_cons rfl rfl (.callRoutine _))
    · exact nomatch h
  · exact nomatch h

/-- **Expressions without operators** use every vocabulary. -/
theorem uses_loadAtom {e : Expr} (h : env.loadAtom name expected e = .ok loaded) :
    Uses v loaded.code := by
  cases e with
  | int value => exact uses_loadLiteral h
  | hex value => exact uses_loadLiteral h
  | char code => exact uses_loadLiteral h
  | str text =>
    rw [loadAtom] at h
    split at h
    · exact uses_loadLiteral h
    · exact nomatch h
  | ident source => exact uses_loadVariable h
  | index list index => exact uses_loadElement h
  | addressOf target => exact uses_loadAddress h
  | deref pointer => exact uses_loadTarget h
  | list items => exact nomatch h
  | binary op lhs rhs => exact nomatch h

/-- An operand is a literal, or an atom that is moved to its register. -/
theorem uses_loadInto {cell : Scalar} {rd : Reg} {e : Expr} {code : Fragment}
    (h : env.loadInto name cell rd e = .ok code) : Uses v code := by
  unfold loadInto at h
  split at h
  · exact nomatch h
  · exact nomatch h
  · split at h
    · obtain ⟨_, -, h⟩ := bind_eq_ok_iff.mp h
      cases h
      exact .loadLiteral_cons _ _ _ .nil
    · obtain ⟨ty, -, h⟩ := bind_eq_ok_iff.mp h
      split at h
      · exact nomatch h
      · obtain ⟨loaded, hloaded, h⟩ := bind_eq_ok_iff.mp h
        cases h
        exact .append (uses_loadAtom hloaded) (.instr_cons rfl rfl .nil)

/-- Both operands, the operation, and a move of its result. -/
theorem uses_arithmetic {op : BinaryOp} {lhs rhs : Expr}
    (h : env.arithmetic name expected op lhs rhs = .ok loaded) : Uses v loaded.code := by
  unfold arithmetic at h
  split at h
  · obtain ⟨_, -, h⟩ := bind_eq_ok_iff.mp h
    exact nomatch h
  · obtain ⟨left, hleft, h⟩ := bind_eq_ok_iff.mp h
    have hresult : ∀ i : Instr, i.label? = none → i.forward? = none →
        Uses v [.instr i, .mov .value .lhs] :=
      fun i hlabel hforward => .instr_cons hlabel hforward (.instr_cons rfl rfl .nil)
    split at h
    · split at h
      · cases h
        exact .append (uses_loadInto hleft) (hresult _ rfl rfl)
      · exact nomatch h
    · obtain ⟨right, hright, h⟩ := bind_eq_ok_iff.mp h
      cases h
      exact .append (.append (uses_loadInto hleft) (uses_loadInto hright)) (hresult _ rfl rfl)

/-- **The code of an expression** names no label but those of routines. -/
theorem uses_load {e : Expr} (h : env.load name expected e = .ok loaded) :
    Uses v loaded.code := by
  unfold load at h
  split at h
  · exact uses_arithmetic h
  · obtain ⟨_, -, h⟩ := bind_eq_ok_iff.mp h
    exact nomatch h
  · exact uses_loadAtom h

theorem uses_loadRaw {ty : Scalar} {e : Expr} (h : env.loadRaw ty e = .ok loaded) :
    Uses v loaded.code := by
  unfold loadRaw at h
  dsimp only at h
  split at h
  · obtain ⟨_, -, h⟩ := bind_eq_ok_iff.mp h
    cases h
    exact .loadLiteral_cons _ _ _ .nil
  · obtain ⟨own, -, h⟩ := bind_eq_ok_iff.mp h
    exact uses_load h

/-- A condition is its two operands and their comparison. -/
theorem uses_condition {cond : Condition} {code : Fragment} (h : env.condition cond = .ok code) :
    Uses v code := by
  unfold condition at h
  obtain ⟨left, hleft, h⟩ := bind_eq_ok_iff.mp h
  obtain ⟨right, hright, h⟩ := bind_eq_ok_iff.mp h
  cases h
  exact .append (.append (uses_loadInto hleft) (uses_loadInto hright)) (.instr_cons rfl rfl .nil)

/-! ## Stores and calls -/

/-- **The code of a store**: a comment with the name, the value, and the call of a
routine. -/
theorem uses_assign {value : Expr} {address : UInt32} {ty : ValueType}
    {result : Fragment × Stored}
    (hname : v.plain → Text.IsPlain name) (h : env.assign name ty value address = .ok result) :
    Uses v result.1 := by
  unfold assign at h
  obtain ⟨loaded, hloaded, h⟩ := bind_eq_ok_iff.mp h
  cases h
  refine .append (.comment_cons (fun hplain => ?_) (uses_load hloaded)) (.storeTo _ _)
  exact .append (.append (.append (.append (hname hplain) (by decide)) value.isPlain_tag)
    (by decide)) (.hexAddress address)

/-- Elements are copied one by one. -/
theorem uses_copyElements (element : Scalar) (source target : UInt32) (count index : Nat) :
    Uses v (copyElements element source target count index) := by
  induction count generalizing index with
  | zero => exact .nil
  | succ count ih => exact .append (.append (.loadFrom _ _) (.storeTo _ _)) (ih (index + 1))

theorem uses_storeItems {base : UInt32} {element : Scalar} {index : Nat} {items : List Expr}
    {code : Fragment} (h : env.storeItems name base element index items = .ok code) :
    Uses v code := by
  induction items generalizing index code with
  | nil =>
    cases h
    exact .nil
  | cons item rest ih =>
    rw [storeItems] at h
    obtain ⟨loaded, hloaded, h⟩ := bind_eq_ok_iff.mp h
    obtain ⟨more, hmore, h⟩ := bind_eq_ok_iff.mp h
    cases h
    exact .append (.append (uses_load hloaded) (.storeTo _ _)) (ih hmore)

/-- A list is copied from a variable or stored item by item. -/
theorem uses_copyList {base : UInt32} {element : Scalar} {len : Nat} {value : Expr}
    {code : Fragment} (h : env.copyList name base element len value = .ok code) :
    Uses v code := by
  unfold copyList at h
  split at h
  · obtain ⟨w, -, h⟩ := bind_eq_ok_iff.mp h
    split at h
    · split at h
      · cases h
        exact uses_copyElements _ _ _ _ _
      · exact nomatch h
    · exact nomatch h
  · split at h
    · exact nomatch h
    · split at h
      · exact nomatch h
      · exact uses_storeItems h

/-- The pointer is kept while the value is loaded, and the store goes through it. -/
theorem uses_assignComputed {base : UInt32} {element : Scalar} {index value : Expr}
    {code : Fragment} (hname : v.plain → Text.IsPlain name)
    (h : env.assignComputed name base element index value = .ok code) : Uses v code := by
  unfold assignComputed at h
  split at h
  · exact nomatch h
  · obtain ⟨pointer, hpointer, h⟩ := bind_eq_ok_iff.mp h
    obtain ⟨loaded, hloaded, h⟩ := bind_eq_ok_iff.mp h
    cases h
    refine .append (.append (.comment_cons (fun hplain => ?_) (uses_elementPointer hpointer))
      (.instr_cons rfl rfl (uses_load hloaded))) (.instr_cons rfl rfl (.callRoutine _))
    exact .append (.append (.append (.append (hname hplain) (by decide)) index.isPlain_tag)
      (by decide)) value.isPlain_tag

theorem uses_poke {address : UInt32} {ty : Scalar} {value : Expr} {code : Fragment}
    (h : env.poke address ty value = .ok code) : Uses v code := by
  unfold poke at h
  obtain ⟨loaded, hloaded, h⟩ := bind_eq_ok_iff.mp h
  cases h
  refine .append (.comment_cons (fun _ => ?_) (uses_loadRaw hloaded)) (.storeTo _ _)
  exact .append (.append (.append (.append (by decide) (.hexAddress address)) (by decide))
    ty.isPlain_name) (by decide)

theorem uses_passArgument {p : Param} {arg : Expr} {code : Fragment}
    (hname : v.plain → Text.IsPlain p.name) (h : env.passArgument p arg = .ok code) :
    Uses v code := by
  unfold passArgument at h
  split at h
  · exact uses_copyList h
  · obtain ⟨result, hresult, rfl⟩ := map_eq_ok_iff.mp h
    exact uses_assign hname hresult

/-- Arguments are passed one by one, each to a parameter with a plain name. -/
theorem uses_passArguments {params : List Param} {args : List Expr} {code : Fragment}
    (hnames : ∀ p ∈ params, v.plain → Text.IsPlain p.name)
    (h : env.passArguments params args = .ok code) : Uses v code := by
  induction params generalizing args code with
  | nil =>
    cases h
    exact .nil
  | cons p params ih =>
    cases args with
    | nil =>
      cases h
      exact .nil
    | cons arg args =>
      rw [List.forall_mem_cons] at hnames
      rw [passArguments] at h
      obtain ⟨first, hfirst, h⟩ := bind_eq_ok_iff.mp h
      obtain ⟨more, hmore, h⟩ := bind_eq_ok_iff.mp h
      cases h
      exact .append (uses_passArgument hnames.1 hfirst) (ih hnames.2 hmore)

theorem uses_putchar {device : UInt32} {args : List Expr} {code : Fragment}
    (h : env.putchar device args = .ok code) : Uses v code := by
  unfold putchar at h
  split at h
  next arg =>
    obtain ⟨loaded, hloaded, h⟩ := bind_eq_ok_iff.mp h
    cases h
    refine .append (.comment_cons (fun _ => ?_) (uses_loadRaw hloaded))
      (.instr_cons rfl rfl (.instr_cons rfl rfl .nil))
    exact .append (by decide) arg.isPlain_tag
  next => exact nomatch h

end Env

/-- **A function fits a vocabulary** if calls to it use the vocabulary. -/
structure Function.Fits (v : Vocabulary) (f : Function) : Prop where
  target : v.target f.label
  label : v.plain → Text.IsPlain f.label
  params : ∀ p ∈ f.params, v.plain → Text.IsPlain p.name

/-- **The code of a call** names the function's label beside those of
routines. -/
theorem Env.uses_callFunction {v : Vocabulary} {env : Env} {f : Function} {args : List Expr}
    {code : Fragment} (hf : f.Fits v) (h : env.callFunction f args = .ok code) :
    Fragment.Uses v code := by
  unfold callFunction at h
  split at h
  · obtain ⟨stores, hstores, h⟩ := bind_eq_ok_iff.mp h
    cases h
    have hjump : Fragment.Uses v (Call.code (.function f.label)) := by
      refine .call ?_
      rintro label ⟨⟩
      exact hf.target
    refine .append (.comment_cons (fun hplain => ?_) (uses_passArguments hf.params hstores)) hjump
    exact .append (by decide) (hf.label hplain)
  · exact nomatch h

/-! ## Symbols -/

/-- **Symbols fit a vocabulary**: variables have plain names, and calls to the
functions in sight, also to those of namespaces, use the vocabulary. -/
structure Symbols.Fits (v : Vocabulary) (s : Symbols Function Namespace) : Prop where
  vars : v.plain → ∀ name w, s.vars.get? name = some w → Text.IsPlain name
  functions : ∀ name f, s.functions.get? name = some f → f.Fits v
  namespaces : ∀ space n, s.namespaces.get? space = some n →
    ∀ name f, n.symbols.functions.get? name = some f → f.Fits v

namespace Symbols.Fits

variable {v : Vocabulary} {s t : Symbols Function Namespace}

/-- A variable fits if its name does; all others were there before. -/
theorem insertVariable (h : s.Fits v) {name : String} (w : Variable)
    (hname : v.plain → Text.IsPlain name) : (s.insertVariable name w).Fits v := by
  refine ⟨fun hplain other u hu => ?_, h.functions, h.namespaces⟩
  unfold Symbols.insertVariable at hu
  by_cases heq : other = name
  · rw [heq]
    exact hname hplain
  · rw [Table.get?_insert_of_ne _ heq] at hu
    exact h.vars hplain other u hu

theorem insertFunction (h : s.Fits v) (name : String) {f : Function} (hf : f.Fits v) :
    (s.insertFunction name f).Fits v := by
  refine ⟨h.vars, fun other g hg => ?_, h.namespaces⟩
  unfold Symbols.insertFunction at hg
  by_cases heq : other = name
  · subst heq
    rw [Table.get?_insert_self, Option.some.injEq] at hg
    exact hg ▸ hf
  · rw [Table.get?_insert_of_ne _ heq] at hg
    exact h.functions other g hg

/-- A namespace fits if all its functions do. -/
theorem insertNamespace (h : s.Fits v) (space : String) {n : Namespace}
    (hn : ∀ name f, n.symbols.functions.get? name = some f → f.Fits v) :
    (s.insertNamespace space n).Fits v := by
  refine ⟨h.vars, h.functions, fun other m hm => ?_⟩
  unfold Symbols.insertNamespace at hm
  by_cases heq : other = space
  · subst heq
    rw [Table.get?_insert_self, Option.some.injEq] at hm
    exact hm ▸ hn
  · rw [Table.get?_insert_of_ne _ heq] at hm
    exact h.namespaces other m hm

/-- Where nothing is bound everything fits. -/
theorem startingAt (nextAddress nextDataAddress : UInt32) :
    (Symbols.startingAt nextAddress nextDataAddress).Fits v where
  vars _ _ _ h := nomatch h
  functions _ _ h := nomatch h
  namespaces _ _ h := nomatch h

/-- **A step keeps symbols fitting**: it binds variables of names that are allowed, and
no function. -/
theorem of_step {names : String → Prop} (hnames : v.plain → ∀ n, names n → Text.IsPlain n)
    (h : Symbols.Step names s t) (hs : s.Fits v) : t.Fits v := by
  cases h with
  | moveCursor h => exact ⟨hs.vars, hs.functions, hs.namespaces⟩
  | moveDataCursor h => exact ⟨hs.vars, hs.functions, hs.namespaces⟩
  | bindCell type value hname hroom =>
    have hmoved : Symbols.Fits v
        { s with nextAddress := addressAfter s.nextAddress type.size } :=
      ⟨hs.vars, hs.functions, hs.namespaces⟩
    exact hmoved.insertVariable _ fun hplain => hnames hplain _ hname
  | bindList address element len value hname =>
    exact hs.insertVariable _ fun hplain => hnames hplain _ hname
  | setValue value h => exact hs.insertVariable _ fun hplain => hs.vars hplain _ _ h

theorem of_steps {names : String → Prop} (hnames : v.plain → ∀ n, names n → Text.IsPlain n)
    (h : Relation.ReflTransGen (Symbols.Step names) s t) (hs : s.Fits v) : t.Fits v := by
  induction h with
  | refl => exact hs
  | tail _ hstep ih => exact of_step hnames hstep ih

/-- What is imported comes from one of the two sides. -/
theorem of_imports {source target result : Symbols Function Namespace}
    (h : Symbols.Imports source target result) (hsource : source.Fits v)
    (htarget : target.Fits v) : result.Fits v where
  vars hplain name w hw := htarget.vars hplain name w (h.vars ▸ hw)
  functions name f hf := (h.functions name f hf).elim (htarget.functions name f)
    (hsource.functions name f)
  namespaces space n hn := (h.namespaces space n hn).elim (htarget.namespaces space n)
    (hsource.namespaces space n)

end Symbols.Fits

/-! ## Simple statements -/

/-- **A statement fits a vocabulary** as far as it goes itself: the names that
it declares, the path that it includes, and what it embeds. -/
def Stmt.Fits (v : Vocabulary) : Stmt → Prop
  | declare _ _ name _ | declareList _ name _ _ _ => v.name name
  | unroll _ var _ _ => v.name var
  | function _ name formals _ => v.name name ∧ ∀ p ∈ formals, v.name p.name
  | space _ name _ => v.name name
  | unit _ path _ => v.plain → Text.IsPlain path
  | embed _ _ => v.embeds
  | _ => True

/-- A declaration binds its name and the names of elements. -/
theorem CompileM.isPlain_of_boundBy {name other : String} (hname : Text.IsPlain name)
    (h : BoundBy name other) : Text.IsPlain other := by
  rcases h with rfl | ⟨index, rfl⟩
  · exact hname
  · exact isPlain_elementName hname index

namespace CompileM

open Fragment (Uses)

variable {v : Vocabulary} {line : Nat} {s s' : Scope} {name : String} {code : Fragment}

/-- Each item of a list is loaded as an expression. -/
theorem uses_loadItems {env : Env} {element : Scalar} {index : Nat} {items : List Expr}
    {loads : List Loaded} (h : env.loadItems name element index items = .ok loads) :
    ∀ loaded ∈ loads, Uses v loaded.code := by
  induction items generalizing index loads with
  | nil =>
    cases h
    exact nofun
  | cons item rest ih =>
    rw [Env.loadItems] at h
    obtain ⟨loaded, hloaded, h⟩ := RegMachine.bind_eq_ok_iff.mp h
    obtain ⟨more, hmore, h⟩ := RegMachine.bind_eq_ok_iff.mp h
    cases h
    exact List.forall_mem_cons.mpr ⟨Env.uses_load hloaded, ih hmore⟩

/-- Elements beyond the items are filled with zeros. -/
theorem uses_fillElements {element : Scalar} {count index : Nat} {loads : List Loaded}
    (hloads : ∀ loaded ∈ loads, Uses v loaded.code)
    (h : fillElements line name element count index loads s = .ok code s') : Uses v code := by
  induction count generalizing index loads s s' code with
  | zero =>
    obtain ⟨rfl, -⟩ := pure_eq_ok_iff.mp h
    exact .nil
  | succ count ih =>
    cases loads with
    | nil =>
      rw [fillElements] at h
      simp only [bind_eq_ok_iff, pure_eq_ok_iff] at h
      obtain ⟨_, _, -, _, _, -, more, _, hmore, rfl, -⟩ := h
      exact .append (.storeZero _ _) (ih hloads hmore)
    | cons loaded rest =>
      rw [List.forall_mem_cons] at hloads
      rw [fillElements] at h
      simp only [bind_eq_ok_iff, pure_eq_ok_iff] at h
      obtain ⟨_, _, -, _, _, -, more, _, hmore, rfl, -⟩ := h
      exact .append (.append hloads.1 (.storeTo _ _)) (ih hloads.2 hmore)

/-- The comment names the source too, which is a variable of the scope. -/
theorem uses_declareCopy {element : Option Scalar} {len : Option Nat} {source : String}
    (hname : v.plain → Text.IsPlain name) (hs : s.symbols.Fits v)
    (h : declareCopy line name element len source s = .ok code s') : Uses v code := by
  obtain ⟨w, t, hlookup, h⟩ := bind_eq_ok_iff.mp h
  obtain ⟨hw, rfl⟩ := lookup_eq_ok_iff.mp hlookup
  cases htype : w.type with
  | list sourceElement sourceLen =>
    rw [htype] at h
    dsimp only at h
    split at h
    · simp only [bind_eq_ok_iff, liftM_eq_ok_iff, pure_eq_ok_iff] at h
      obtain ⟨base, _, -, _, _, -, _, _, -, copy, _, ⟨hcopy, -⟩, _, _, -, rfl, -⟩ := h
      refine .comment_cons (fun hplain => ?_) (Env.uses_copyList hcopy)
      exact .append (.append (.append (.append (.append (.append (ValueType.isPlain_text _)
        (by decide)) (hname hplain)) (by decide)) (hs.vars hplain source w hw)) (by decide))
        (.hexAddress base)
    · exact (fail_eq_ok_iff.mp h).elim
  | scalar ty =>
    rw [htype] at h
    exact (fail_eq_ok_iff.mp h).elim
  | pointer target =>
    rw [htype] at h
    exact (fail_eq_ok_iff.mp h).elim

theorem uses_declareItems {element : Option Scalar} {len : Option Nat} {value : Option Expr}
    (hname : v.plain → Text.IsPlain name)
    (h : declareItems line name element len value s = .ok code s') : Uses v code := by
  unfold declareItems at h
  simp only [bind_eq_ok_iff, liftM_eq_ok_iff, pure_eq_ok_iff] at h
  obtain ⟨env, _, -, items, _, -, ty, _, -, _, _, -, count, _, -, loads, _, ⟨hloads, -⟩, base, _,
    -, fill, _, hfill, _, _, -, rfl, -⟩ := h
  refine .comment_cons (fun hplain => ?_) (uses_fillElements (uses_loadItems hloads) hfill)
  exact .append (.append (.append (.append (ValueType.isPlain_text _) (by decide)) (hname hplain))
    (by decide)) (.hexAddress base)

theorem uses_declareList {element : Option Scalar} {len : Option Nat} {value : Option Expr}
    (hname : v.plain → Text.IsPlain name) (hs : s.symbols.Fits v)
    (h : declareList line name element len value s = .ok code s') : Uses v code := by
  obtain ⟨_, t, hundeclared, h⟩ := bind_eq_ok_iff.mp h
  obtain ⟨-, rfl⟩ := ensureUndeclared_eq_ok_iff.mp hundeclared
  split at h
  · exact uses_declareCopy hname hs h
  · exact uses_declareItems hname h

theorem uses_declareCell {type : ValueType} {value : Expr} (hname : v.plain → Text.IsPlain name)
    (h : declareCell line type name value s = .ok code s') : Uses v code := by
  unfold declareCell at h
  simp only [bind_eq_ok_iff, liftM_eq_ok_iff, pure_eq_ok_iff] at h
  obtain ⟨_, _, -, env, _, -, loaded, _, ⟨hloaded, -⟩, address, _, -, _, _, -, rfl, -⟩ := h
  refine .append (.comment_cons (fun hplain => ?_) (Env.uses_load hloaded)) (.storeTo _ _)
  exact .append (.append (.append (.append type.isPlain_text (by decide)) (hname hplain))
    (by decide)) (.hexAddress address)

theorem uses_declareVariable {type : ValueType} {value : Expr}
    (hname : v.plain → Text.IsPlain name) (hs : s.symbols.Fits v)
    (h : declareVariable line type name value s = .ok code s') : Uses v code := by
  unfold declareVariable at h
  split at h
  · exact uses_declareList hname hs h
  · split at h
    · exact uses_declareList hname hs h
    · exact uses_declareCell hname h
  · exact uses_declareCell hname h

/-- The code that stores a value and records it. -/
theorem uses_record {env : Env} {ty : ValueType} {value : Expr} {address : UInt32}
    (hname : v.plain → Text.IsPlain name)
    (h : (do
      let (code, stored) ← env.assign name ty value address
      setValue name stored line
      return code : CompileM Fragment) s = .ok code s') : Uses v code := by
  obtain ⟨result, _, hresult, h⟩ := bind_eq_ok_iff.mp h
  obtain ⟨_, _, -, h⟩ := bind_eq_ok_iff.mp h
  obtain ⟨rfl, -⟩ := pure_eq_ok_iff.mp h
  exact Env.uses_assign hname (liftM_eq_ok_iff.mp hresult).1

theorem uses_assign {value : Expr} (hs : s.symbols.Fits v)
    (h : assign line name value s = .ok code s') : Uses v code := by
  obtain ⟨w, _, hlookup, h⟩ := bind_eq_ok_iff.mp h
  obtain ⟨hw, rfl⟩ := lookup_eq_ok_iff.mp hlookup
  obtain ⟨env, _, -, h⟩ := bind_eq_ok_iff.mp h
  have hname : v.plain → Text.IsPlain name := fun hplain => hs.vars hplain name w hw
  cases htype : w.type with
  | list element len =>
    rw [htype] at h
    obtain ⟨copy, _, hcopy, h⟩ := bind_eq_ok_iff.mp h
    obtain ⟨rfl, -⟩ := pure_eq_ok_iff.mp h
    refine .comment_cons (fun hplain => ?_) (Env.uses_copyList (liftM_eq_ok_iff.mp hcopy).1)
    exact .append (.append (hname hplain) (by decide)) (.hexAddress w.address)
  | scalar ty =>
    rw [htype] at h
    exact uses_record hname h
  | pointer target =>
    rw [htype] at h
    exact uses_record hname h

/-- With a literal index the store goes to a named element, else through a pointer. -/
theorem uses_assignAt {index value : Expr} (hs : s.symbols.Fits v)
    (h : assignAt line name index value s = .ok code s') : Uses v code := by
  obtain ⟨w, _, hlookup, h⟩ := bind_eq_ok_iff.mp h
  obtain ⟨hw, rfl⟩ := lookup_eq_ok_iff.mp hlookup
  obtain ⟨env, _, -, h⟩ := bind_eq_ok_iff.mp h
  have hname : v.plain → Text.IsPlain name := fun hplain => hs.vars hplain name w hw
  cases htype : w.type with
  | list element len =>
    rw [htype] at h
    dsimp only at h
    cases hindex : index.literalValue? with
    | some i =>
      rw [hindex] at h
      simp only [bind_eq_ok_iff, liftM_eq_ok_iff, pure_eq_ok_iff] at h
      obtain ⟨address, _, -, result, _, ⟨hresult, -⟩, _, _, -, rfl, -⟩ := h
      exact Env.uses_assign (fun hplain => isPlain_elementName (hname hplain) _) hresult
    | none =>
      rw [hindex] at h
      exact Env.uses_assignComputed hname (liftM_eq_ok_iff.mp h).1
  | scalar ty =>
    rw [htype] at h
    exact (fail_eq_ok_iff.mp h).elim
  | pointer target =>
    rw [htype] at h
    exact (fail_eq_ok_iff.mp h).elim

end CompileM

/-- What is embedded is split into raw lines. -/
theorem Env.uses_embed {v : Vocabulary} {env : Env} {text : String} {code : Fragment}
    (hembeds : v.embeds) (h : env.embed text = .ok code) : code.Uses v :=
  .of_raw hembeds (isLine_of_embed h)

/-- **The function that a call means** is bound in the scope, or in a namespace that is
bound there. -/
theorem Scope.bound_of_resolveFunction {s : Scope} {line : Nat} {space : Option String}
    {name : String} {f : Function} (h : s.resolveFunction line space name = .ok f) :
    s.symbols.functions.get? name = some f
      ∨ ∃ space n, s.symbols.namespaces.get? space = some n
        ∧ n.symbols.functions.get? name = some f := by
  unfold resolveFunction at h
  split at h
  · obtain ⟨n, hn, h⟩ := bind_eq_ok_iff.mp h
    unfold lookupNamespace at hn
    split at hn
    next m hm =>
      cases hn
      split at h
      next g hg =>
        cases h
        exact .inr ⟨_, n, hm, hg⟩
      next => exact nomatch h
    next => exact nomatch hn
  · split at h
    next g hg =>
      cases h
      exact .inl hg
    next => exact nomatch h

theorem Scope.fits_of_resolveFunction {v : Vocabulary} {s : Scope} {line : Nat}
    {space : Option String} {name : String} {f : Function} (hs : s.symbols.Fits v)
    (h : s.resolveFunction line space name = .ok f) : f.Fits v := by
  rcases bound_of_resolveFunction h with hf | ⟨space, n, hn, hf⟩
  · exact hs.functions name f hf
  · exact hs.namespaces space n hn name f hf

/-- A call of `putchar` stores to the device and names no label. -/
theorem Scope.uses_call {v : Vocabulary} {s : Scope} {line : Nat} {space : Option String}
    {name : String} {args : List Expr} {code : Fragment} (hs : s.symbols.Fits v)
    (h : s.call line space name args = .ok code) : code.Uses v := by
  unfold call at h
  split at h
  · exact Env.uses_putchar h
  · obtain ⟨f, hf, h⟩ := bind_eq_ok_iff.mp h
    exact Env.uses_callFunction (fits_of_resolveFunction hs hf) h

/-- **The code of a simple statement uses the vocabulary** that the statement and
its scope fit, and the scope goes on to fit it. -/
theorem Stmt.uses_of_isSimple {v : Vocabulary} {stmt : Stmt} {s s' : Scope} {code : Fragment}
    (hsimple : stmt.isSimple = true) (hfits : stmt.Fits v) (hs : s.symbols.Fits v)
    (h : stmt.compile s = .ok code s') : code.Uses v ∧ s'.symbols.Fits v := by
  constructor
  · cases stmt with
    | declare line type name value =>
      exact CompileM.uses_declareVariable (fun hplain => v.isPlain_name hplain name hfits) hs h
    | declareList line name element len value =>
      exact CompileM.uses_declareList (fun hplain => v.isPlain_name hplain name hfits) hs h
    | assign line name value => exact CompileM.uses_assign hs h
    | assignAt line name index value => exact CompileM.uses_assignAt hs h
    | call line space name args =>
      obtain ⟨t, _, hget, h⟩ := CompileM.bind_eq_ok_iff.mp h
      obtain ⟨rfl, rfl⟩ := CompileM.get_eq_ok_iff.mp hget
      exact Scope.uses_call hs (CompileM.liftM_eq_ok_iff.mp h).1
    | embed line text =>
      obtain ⟨env, _, -, h⟩ := CompileM.bind_eq_ok_iff.mp h
      exact Env.uses_embed hfits (CompileM.liftM_eq_ok_iff.mp h).1
    | poke line address type value =>
      obtain ⟨env, _, -, h⟩ := CompileM.bind_eq_ok_iff.mp h
      exact Env.uses_poke (CompileM.liftM_eq_ok_iff.mp h).1
    | directive line region address =>
      obtain ⟨_, _, -, h⟩ := CompileM.bind_eq_ok_iff.mp h
      obtain ⟨rfl, -⟩ := CompileM.pure_eq_ok_iff.mp h
      exact .nil
    | branch | loop | unroll | function | space | unit => exact nomatch hsimple
  · refine .of_steps (fun hplain n hn => ?_) (stmt.edits_of_isSimple hsimple h).steps hs
    cases stmt with
    | declare line type name value =>
      exact CompileM.isPlain_of_boundBy (v.isPlain_name hplain name hfits) hn
    | declareList line name element len value =>
      exact CompileM.isPlain_of_boundBy (v.isPlain_name hplain name hfits) hn
    | _ => exact hn.elim

end RegMachine
