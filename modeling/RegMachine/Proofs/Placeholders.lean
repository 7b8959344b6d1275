import RegMachine.Proofs.Embedding

/-!
# Filling in placeholders

A line of embedded assembly is scanned from left to right. The first brace that opens and is
closed makes a placeholder together with the text up to its closing brace, and the scan goes
on behind it. `Embed.Cut` is the outcome of such a scan as data: the text in front of each
placeholder, which opens nothing, the name in the placeholder, which closes nothing, and what
is left when no brace is closed any more. Every line is cut in one way only
(`Embed.existsUnique_cut`).

Filling in follows the cut. `Env.substitute_hole` says what happens at its first placeholder,
`Env.substitute_of_unclosed` what happens when there is none, and with these two equations a
line is never looked at again character by character. It comes out that substitution fails at
the first name that is not bound, and that otherwise every placeholder is replaced by an
address and nothing else is changed (`Env.substitute_fills`).
-/

namespace RegMachine

/-! ## Braces that are closed -/

namespace Text

/-- No brace is closed if no closing brace stands anywhere behind an opening one. -/
theorem unclosed_iff {cs : List Char} :
    Unclosed cs ↔ ∀ front back, cs = front ++ '\x7b' :: back → '\x7d' ∉ back := by
  induction cs with
  | nil => exact ⟨fun _ front back h => absurd h.symm (by simp), fun _ => trivial⟩
  | cons c cs ih =>
    rw [Unclosed, ih]
    constructor
    · rintro ⟨hhead, htail⟩ front back h
      cases front with
      | nil =>
        cases h
        exact hhead rfl
      | cons d front =>
        cases h
        exact htail front back rfl
    · intro h
      refine ⟨fun hc => h [] cs (hc ▸ rfl), fun front back hcs => h (c :: front) back ?_⟩
      rw [hcs, List.cons_append]

/-- A text is cut at the first place of a character in one way. -/
theorem append_cons_inj {c : Char} {front₁ front₂ back₁ back₂ : List Char} (h₁ : c ∉ front₁)
    (h₂ : c ∉ front₂) (h : front₁ ++ c :: back₁ = front₂ ++ c :: back₂) :
    front₁ = front₂ ∧ back₁ = back₂ := by
  induction front₁ generalizing front₂ with
  | nil =>
    cases front₂ with
    | nil =>
      cases h
      exact ⟨rfl, rfl⟩
    | cons d front₂ =>
      cases h
      exact absurd List.mem_cons_self h₂
  | cons d front₁ ih =>
    cases front₂ with
    | nil =>
      cases h
      exact absurd List.mem_cons_self h₁
    | cons e front₂ =>
      obtain ⟨rfl, htail⟩ := List.cons_eq_cons.mp h
      obtain ⟨rfl, hback⟩ := ih (List.not_mem_of_not_mem_cons h₁)
        (List.not_mem_of_not_mem_cons h₂) htail
      exact ⟨rfl, hback⟩

end Text

/-! ## Lines cut at their placeholders -/

namespace Embed

/-- **A line cut at its placeholders**, from left to right. -/
inductive Cut where
  /-- No brace is closed in what is left. -/
  | plain (text : List Char) (unclosed : Text.Unclosed text)
  /-- The next placeholder, with the text in front of it, and what is behind it. -/
  | hole (front name : List Char) (opening_not_mem : '\x7b' ∉ front)
      (closing_not_mem : '\x7d' ∉ name) (rest : Cut)

namespace Cut

/-- The names in the placeholders, in order. -/
def names : Cut → List (List Char)
  | plain _ _ => []
  | hole _ name _ _ rest => name :: rest.names

/-- **The line with its placeholders filled in**, each by a text that depends on its name. -/
def fill (filling : List Char → List Char) : Cut → List Char
  | plain text _ => text
  | hole front name _ _ rest => front ++ (filling name ++ rest.fill filling)

/-- **The line that was cut**, where every placeholder has its braces. -/
def line (cut : Cut) : List Char := cut.fill fun name => '\x7b' :: (name ++ ['\x7d'])

@[simp]
theorem line_plain (text : List Char) (h : Text.Unclosed text) : (plain text h).line = text := rfl

@[simp]
theorem line_hole {front name : List Char} (h₁ : '\x7b' ∉ front) (h₂ : '\x7d' ∉ name)
    (rest : Cut) :
    (hole front name h₁ h₂ rest).line = front ++ '\x7b' :: (name ++ '\x7d' :: rest.line) := by
  unfold line
  rw [fill, List.cons_append, List.append_assoc, List.singleton_append]

/-- One more character in front, which opens nothing. -/
def cons {c : Char} (hc : c ≠ '\x7b') : Cut → Cut
  | plain text h => plain (c :: text) ⟨fun hbrace => absurd hbrace hc, h⟩
  | hole front name h₁ h₂ rest =>
    hole (c :: front) name (List.not_mem_cons_of_ne_of_not_mem hc.symm h₁) h₂ rest

theorem line_cons {c : Char} (hc : c ≠ '\x7b') (cut : Cut) :
    (cut.cons hc).line = c :: cut.line := by
  cases cut with
  | plain text h => rfl
  | hole front name h₁ h₂ rest => rw [cons, line_hole, line_hole, List.cons_append]

/-- **The cut is determined by its line.** -/
theorem line_injective : Function.Injective line := by
  intro cut
  induction cut with
  | plain text hunclosed =>
    intro other h
    cases other with
    | plain text' _ =>
      cases h
      rfl
    | hole front name _ _ rest =>
      rw [line_plain, line_hole] at h
      exact absurd (List.mem_append_right name List.mem_cons_self)
        (Text.unclosed_iff.mp hunclosed front _ h)
  | hole front name hfront hname rest ih =>
    intro other h
    cases other with
    | plain text hunclosed =>
      rw [line_plain, line_hole] at h
      exact absurd (List.mem_append_right name List.mem_cons_self)
        (Text.unclosed_iff.mp hunclosed front _ h.symm)
    | hole front' name' hfront' hname' rest' =>
      rw [line_hole, line_hole] at h
      obtain ⟨rfl, hholes⟩ := Text.append_cons_inj hfront hfront' h
      obtain ⟨rfl, hrest⟩ := Text.append_cons_inj hname hname' hholes
      obtain rfl := ih hrest
      rfl

end Cut

/-- **Every line has a cut.** A brace that opens is followed by a closing one or by none, and
in the first case the scan goes on behind that one, on a shorter line. -/
theorem exists_cut (line : List Char) : ∃ cut : Cut, cut.line = line := by
  induction hlength : line.length using Nat.strong_induction_on generalizing line with
  | h length ih =>
    cases line with
    | nil => exact ⟨.plain [] trivial, rfl⟩
    | cons c cs =>
      by_cases hc : c = '\x7b'
      · subst hc
        by_cases hclosing : '\x7d' ∈ cs
        · obtain ⟨name, rest, rfl, hname⟩ := List.eq_append_cons_of_mem hclosing
          have hshorter : rest.length < length := by
            simp only [List.length_cons, List.length_append] at hlength
            omega
          obtain ⟨cut, rfl⟩ := ih rest.length hshorter rest rfl
          exact ⟨.hole [] name List.not_mem_nil hname cut, Cut.line_hole ..⟩
        · have hunclosed : Text.Unclosed ('\x7b' :: cs) :=
            ⟨fun _ => hclosing, Text.unclosed_of_closing_not_mem hclosing⟩
          exact ⟨.plain _ hunclosed, rfl⟩
      · obtain ⟨cut, rfl⟩ := ih cs.length (hlength ▸ Nat.lt_succ_self _) cs rfl
        exact ⟨cut.cons hc, cut.line_cons hc⟩

/-- **Every line is cut in one way only.** -/
theorem existsUnique_cut (line : List Char) : ∃! cut : Cut, cut.line = line := by
  obtain ⟨cut, rfl⟩ := exists_cut line
  exact ⟨cut, rfl, fun other h => Cut.line_injective h⟩

/-! ### The pieces of a cut line -/

/-- Text that opens nothing is copied. -/
theorem pieces_append {front : List Char} (h : '\x7b' ∉ front) (rest : List Char) :
    pieces (front ++ rest) = front.map .char ++ pieces rest := by
  induction front with
  | nil => rfl
  | cons c front ih =>
    have hc : ¬ c = '\x7b' := fun hc => List.ne_of_not_mem_cons h hc.symm
    unfold pieces
    rw [List.cons_append, piecesFrom, if_neg hc]
    exact congrArg (.char c :: ·) (ih (List.not_mem_of_not_mem_cons h))

/-- A placeholder goes on to the next closing brace. -/
theorem piecesFrom_some_append {name : List Char} (h : '\x7d' ∉ name) (read rest : List Char) :
    piecesFrom (some read) (name ++ '\x7d' :: rest)
      = .hole (read.reverse ++ name) :: pieces rest := by
  induction name generalizing read with
  | nil =>
    rw [List.nil_append, piecesFrom, if_pos rfl, List.append_nil]
    rfl
  | cons c name ih =>
    have hc : ¬ c = '\x7d' := fun hc => List.ne_of_not_mem_cons h hc.symm
    rw [List.cons_append, piecesFrom, if_neg hc, ih (List.not_mem_of_not_mem_cons h),
      List.reverse_cons, List.append_assoc, List.singleton_append]

theorem pieces_hole {name : List Char} (h : '\x7d' ∉ name) (rest : List Char) :
    pieces ('\x7b' :: (name ++ '\x7d' :: rest)) = .hole name :: pieces rest :=
  piecesFrom_some_append h [] rest

/-- A brace that is never closed is copied with all that follows it. -/
theorem piecesFrom_some {cs : List Char} (h : '\x7d' ∉ cs) (read : List Char) :
    piecesFrom (some read) cs = ('\x7b' :: (read.reverse ++ cs)).map .char := by
  induction cs generalizing read with
  | nil =>
    rw [List.append_nil]
    rfl
  | cons c cs ih =>
    have hc : ¬ c = '\x7d' := fun hc => List.ne_of_not_mem_cons h hc.symm
    rw [piecesFrom, if_neg hc, ih (List.not_mem_of_not_mem_cons h), List.reverse_cons,
      List.append_assoc, List.singleton_append]

theorem pieces_of_unclosed {cs : List Char} (h : Text.Unclosed cs) :
    pieces cs = cs.map .char := by
  induction cs with
  | nil => rfl
  | cons c cs ih =>
    unfold pieces
    rw [piecesFrom]
    split
    next hc =>
      subst hc
      exact piecesFrom_some (h.1 rfl) []
    next => exact congrArg (.char c :: ·) (ih h.2)

end Embed

/-! ## Substitution -/

namespace Env

open Embed

variable {env : Env}

/-- **The address that a placeholder stands for**: that of the variable with its name, blanks
around the name aside. -/
def address? (env : Env) (name : List Char) : Option UInt32 :=
  (env.vars.get? (String.ofList (Text.trim name))).map (·.address)

/-- The error of a placeholder whose name is not bound. -/
def unknownName (env : Env) (name : List Char) : CompileError :=
  ⟨env.line, .unknownVariable (String.ofList (Text.trim name)) env.vars.keys⟩

theorem pieceText_hole (env : Env) (name : List Char) :
    env.pieceText (.hole name) = match env.address? name with
      | some address => .ok (Text.hexAddress address).toList
      | none => .error (env.unknownName name) := by
  unfold address?
  rw [pieceText, lookup]
  cases env.vars.get? (String.ofList (Text.trim name)) <;> rfl

theorem piecesText_append_map_char (env : Env) (front : List Char) (pieces : List Piece) :
    env.piecesText (front.map .char ++ pieces) = (env.piecesText pieces).map (front ++ ·) := by
  induction front with
  | nil =>
    show env.piecesText pieces = (env.piecesText pieces).map id
    cases env.piecesText pieces <;> rfl
  | cons c front ih =>
    rw [List.map_cons, List.cons_append, piecesText, ih]
    cases env.piecesText pieces <;> rfl

/-- **A line without placeholders stays as it is.** -/
theorem substitute_of_unclosed (env : Env) {cs : List Char} (h : Text.Unclosed cs) :
    env.substitute cs = .ok cs := by
  unfold substitute
  rw [pieces_of_unclosed h, piecesText_map_char]

/-- **What happens at a placeholder**: its name is looked up, and then the rest of the line is
filled in. -/
theorem substitute_hole (env : Env) {front name : List Char} (hfront : '\x7b' ∉ front)
    (hname : '\x7d' ∉ name) (rest : List Char) :
    env.substitute (front ++ '\x7b' :: (name ++ '\x7d' :: rest)) = match env.address? name with
      | some address => (env.substitute rest).map
          fun text => front ++ ((Text.hexAddress address).toList ++ text)
      | none => .error (env.unknownName name) := by
  unfold substitute
  rw [pieces_append hfront, pieces_hole hname, piecesText_append_map_char, piecesText,
    pieceText_hole]
  cases env.address? name with
  | none => rfl
  | some address => cases env.piecesText (pieces rest) <;> rfl

/-- **Where all names are bound**, every placeholder gives way to an address. -/
theorem substitute_line_eq_ok {cut : Cut} {address : List Char → UInt32}
    (h : ∀ name ∈ cut.names, env.address? name = some (address name)) :
    env.substitute cut.line
      = .ok (cut.fill fun name => (Text.hexAddress (address name)).toList) := by
  induction cut with
  | plain text hunclosed => exact env.substitute_of_unclosed hunclosed
  | hole front name hfront hname rest ih =>
    obtain ⟨hbound, hrest⟩ := List.forall_mem_cons.mp h
    rw [Cut.line_hole, substitute_hole env hfront hname, hbound, ih hrest]
    rfl

/-- **The first name that is not bound** stops the scan. -/
theorem substitute_line_eq_error {cut : Cut} {bound later : List (List Char)} {name : List Char}
    (hnames : cut.names = bound ++ name :: later)
    (hbound : ∀ other ∈ bound, env.address? other ≠ none) (hname : env.address? name = none) :
    env.substitute cut.line = .error (env.unknownName name) := by
  induction cut generalizing bound with
  | plain text hunclosed => exact absurd hnames.symm (by simp [Cut.names])
  | hole front first hfront hfirst rest ih =>
    rw [Cut.line_hole, substitute_hole env hfront hfirst]
    cases bound with
    | nil =>
      cases hnames
      rw [hname]
    | cons other bound =>
      obtain ⟨rfl, hrest⟩ := List.cons_eq_cons.mp hnames
      obtain ⟨hother, hbound⟩ := List.forall_mem_cons.mp hbound
      obtain ⟨address, haddress⟩ := Option.ne_none_iff_exists'.mp hother
      rw [haddress, ih hrest hbound]
      rfl

/-- All names of a cut are bound, or one of them is the first that is not. -/
theorem bound_or_exists_unbound (env : Env) (cut : Cut) :
    (∃ address : List Char → UInt32, ∀ name ∈ cut.names, env.address? name = some (address name))
      ∨ ∃ bound name later, cut.names = bound ++ name :: later
        ∧ (∀ other ∈ bound, env.address? other ≠ none) ∧ env.address? name = none := by
  cases hfind : cut.names.find? fun name => (env.address? name).isNone with
  | none =>
    refine .inl ⟨fun name => (env.address? name).getD 0, fun name hname => ?_⟩
    have hbound := List.find?_eq_none.mp hfind name hname
    rw [Option.isNone_iff_eq_none] at hbound
    obtain ⟨address, haddress⟩ := Option.ne_none_iff_exists'.mp hbound
    show env.address? name = some ((env.address? name).getD 0)
    rw [haddress, Option.getD_some]
  | some name =>
    obtain ⟨hname, bound, later, hnames, hbound⟩ := List.find?_eq_some_iff_append.mp hfind
    refine .inr ⟨bound, name, later, hnames, fun other hother hnone => ?_,
      Option.isNone_iff_eq_none.mp hname⟩
    have hother := hbound other hother
    rw [hnone] at hother
    exact nomatch hother

/-- An address closes no brace. -/
theorem unclosed_fill (cut : Cut) (address : List Char → UInt32) :
    Text.Unclosed (cut.fill fun name => (Text.hexAddress (address name)).toList) := by
  induction cut with
  | plain text hunclosed => exact hunclosed
  | hole front name hfront hname rest ih =>
    have hplain := Text.IsPlain.hexAddress (address name)
    exact .append hfront (.append (fun hmem => (hplain _ hmem).2 rfl) ih)

/-- **Every placeholder of a line is filled in.** A line is cut at its placeholders in one
way. Substitution fails exactly if the name in one of them is not bound, and the error names
the first such. Otherwise every placeholder has given way to the address of its name, and the
rest of the line is as it was; no brace is closed in the result, and to substitute in it again
changes nothing. -/
theorem substitute_fills (env : Env) (line : List Char) :
    ∃ cut : Cut, cut.line = line ∧ (∀ other : Cut, other.line = line → other = cut)
      ∧ ((∃ e, env.substitute line = .error e) ↔ ∃ name ∈ cut.names, env.address? name = none)
      ∧ (∀ e, env.substitute line = .error e →
        ∃ bound name later, cut.names = bound ++ name :: later
          ∧ (∀ other ∈ bound, env.address? other ≠ none) ∧ env.address? name = none
          ∧ e = env.unknownName name)
      ∧ ∀ text, env.substitute line = .ok text →
        (∃ address : List Char → UInt32,
          (∀ name ∈ cut.names, env.address? name = some (address name))
            ∧ text = cut.fill fun name => (Text.hexAddress (address name)).toList)
        ∧ (∀ front back, text = front ++ '\x7b' :: back → '\x7d' ∉ back)
        ∧ env.substitute text = .ok text := by
  obtain ⟨cut, rfl, hunique⟩ := existsUnique_cut line
  refine ⟨cut, rfl, hunique, ?_⟩
  obtain ⟨address, hbound⟩ | ⟨bound, name, later, hnames, hbound, hname⟩ :=
    bound_or_exists_unbound env cut
  · rw [substitute_line_eq_ok hbound]
    have hunclosed := unclosed_fill cut address
    refine ⟨⟨nofun, ?_⟩, nofun, ?_⟩
    · rintro ⟨name, hname, hnone⟩
      rw [hbound name hname] at hnone
      exact nomatch hnone
    · rintro text ⟨⟩
      exact ⟨⟨address, hbound, rfl⟩, Text.unclosed_iff.mp hunclosed,
        env.substitute_of_unclosed hunclosed⟩
  · rw [substitute_line_eq_error hnames hbound hname]
    refine ⟨⟨fun _ => ⟨name, ?_, hname⟩, fun _ => ⟨_, rfl⟩⟩, ?_, nofun⟩
    · rw [hnames]
      exact List.mem_append_right bound List.mem_cons_self
    · rintro e ⟨⟩
      exact ⟨bound, name, later, hnames, hbound, hname, rfl⟩

/-- Braces that close nothing, a placeholder with a brace and blanks in it, and a brace that is
never closed. -/
example : substitute ⟨(∅ : Table Variable).insert "\x7bb" ⟨4096, .scalar .int, .zeroed⟩, 1⟩
      "\x7d ldr r1, \x7b \x7bb \x7d\x7d \x7b\x7b".toList
    = .ok "\x7d ldr r1, 0x1000\x7d \x7b\x7b".toList := by
  decide +kernel

end Env

end RegMachine
