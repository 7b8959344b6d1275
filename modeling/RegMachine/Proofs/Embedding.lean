import RegMachine.Compile.Embed
import RegMachine.Proofs.ReadBack

/-!
# Plain text and embedded lines

Text that is generated is *plain*: it stays on one line, and no brace is in it.
The text of embedded assembly is the program's own, and little can be said about
what it holds. Still, every item that comes of it is one line, with something on
it, and no brace on that line is closed (`Env.isLine_of_embed`): a brace that
was closed was a placeholder, and an address stands in its place. So nothing that
is embedded looks like a placeholder of the template.
-/

namespace RegMachine

/-! ## Plain text -/

/-- **Plain text**: it stays on one line, and it opens no placeholder. -/
def Text.IsPlain (s : String) : Prop := ∀ c ∈ s.toList, c ≠ '\n' ∧ c ≠ '\x7b'

namespace Text.IsPlain

instance (s : String) : Decidable (IsPlain s) :=
  List.decidableBAll (fun c => c ≠ '\n' ∧ c ≠ '\x7b') s.toList

/-- Plain texts may be put together. -/
protected theorem append {s t : String} (hs : IsPlain s) (ht : IsPlain t) : IsPlain (s ++ t) := by
  intro c hc
  rw [String.toList_append, List.mem_append] at hc
  exact hc.elim (hs c) (ht c)

/-- Digits are plain in every base. -/
theorem ofList_toDigits {base : Nat} (h₁ : 1 < base) (h₂ : base ≤ 16) (n : Nat) :
    IsPlain (String.ofList (Nat.toDigits base n)) := by
  intro c hc
  rw [String.toList_ofList] at hc
  have hdigit := isDigitChar_of_mem_toDigits h₁ h₂ hc
  constructor
  · rintro rfl
    exact absurd hdigit (by decide)
  · rintro rfl
    exact absurd hdigit (by decide)

/-- Plain texts may be joined by a plain separator. -/
protected theorem intercalate {sep : String} (hsep : IsPlain sep) {texts : List String}
    (h : ∀ text ∈ texts, IsPlain text) : IsPlain (sep.intercalate texts) := by
  intro c hc
  rcases Text.mem_intercalate hc with hc | ⟨text, htext, hc⟩
  · exact hsep c hc
  · exact h text htext c hc

theorem decimal (n : Nat) : IsPlain (Text.decimal n) :=
  ofList_toDigits (by decide) (by decide) n

theorem signedDecimal (value : Int) : IsPlain (Text.signedDecimal value) := by
  cases value with
  | ofNat n => exact .decimal n
  | negSucc n => exact .append (by decide) (.decimal (n + 1))

theorem hexDigits (n : Nat) : IsPlain (Text.hexDigits n) :=
  ofList_toDigits (by decide) (by decide) n

/-- An address is plain, so it may be filled in for a placeholder. -/
theorem hexAddress (address : UInt32) : IsPlain (Text.hexAddress address) :=
  .append (by decide) (.hexDigits _)

end Text.IsPlain

/-! ## Braces -/

namespace Text

/-- **No brace is closed**: behind an opening brace stands no closing one. -/
def Unclosed : List Char → Prop
  | [] => True
  | c :: cs => (c = '\x7b' → '\x7d' ∉ cs) ∧ Unclosed cs

/-- Where there is no closing brace, none is closed. -/
theorem unclosed_of_closing_not_mem {cs : List Char} (h : '\x7d' ∉ cs) : Unclosed cs := by
  induction cs with
  | nil => trivial
  | cons c cs ih =>
    have hcs : '\x7d' ∉ cs := List.not_mem_of_not_mem_cons h
    exact ⟨fun _ => hcs, ih hcs⟩

/-- Text without an opening brace goes in front. -/
theorem Unclosed.append {cs ds : List Char} (hcs : '\x7b' ∉ cs) (hds : Unclosed ds) :
    Unclosed (cs ++ ds) := by
  induction cs with
  | nil => exact hds
  | cons c cs ih =>
    exact ⟨fun hc => absurd hc.symm (List.ne_of_not_mem_cons hcs),
      ih (List.not_mem_of_not_mem_cons hcs)⟩

/-- Where there is no opening brace, none is closed. -/
theorem unclosed_of_not_mem {cs : List Char} (h : '\x7b' ∉ cs) : Unclosed cs := by
  rw [← List.append_nil cs]
  exact .append h trivial

/-! ## Embedded lines -/

/-- **The lines of a text** hold no line break. -/
theorem newline_not_mem_of_mem_lines {cs l : List Char} (h : l ∈ lines cs) : '\n' ∉ l := by
  fun_induction lines cs generalizing l with
  | case1 => exact nomatch h
  | case2 cs ih =>
    rcases List.mem_cons.mp h with rfl | h
    · exact List.not_mem_nil
    · exact ih h
  | case3 cs ih =>
    rcases List.mem_cons.mp h with rfl | h
    · exact List.not_mem_nil
    · exact ih h
  | case4 c cs hnewline _ hlines ih =>
    rw [List.mem_singleton.mp h, List.mem_singleton]
    exact fun hc => hnewline hc.symm
  | case5 c cs hnewline _ first rest hlines ih =>
    rw [hlines] at ih
    rcases List.mem_cons.mp h with rfl | h
    · refine fun hmem => (List.mem_cons.mp hmem).elim (fun hc => hnewline hc.symm) ?_
      exact ih List.mem_cons_self
    · exact ih (List.mem_cons_of_mem first h)

/-- Trimming a line only takes characters away. -/
theorem mem_of_mem_trim {c : Char} {cs : List Char} (h : c ∈ trim cs) : c ∈ cs := by
  unfold trim trimStart at h
  rw [List.mem_reverse] at h
  exact (List.dropWhile_suffix _).subset
    (List.mem_reverse.mp ((List.dropWhile_suffix _).subset h))

/-- **A line of generated text**: it is one line, with something on it, and no brace
on it is closed. -/
structure IsLine (cs : List Char) : Prop where
  ne_nil : cs ≠ []
  newline_not_mem : '\n' ∉ cs
  unclosed : Unclosed cs

end Text

namespace Env

variable {env : Env} {text : List Char}

/-- The pieces of a line are filled in from left to right, and the first fault
ends it. -/
theorem piecesText_cons_eq_ok_iff {p : Piece} {pieces : List Piece} :
    env.piecesText (p :: pieces) = .ok text
      ↔ ∃ front back, env.pieceText p = .ok front ∧ env.piecesText pieces = .ok back
        ∧ text = front ++ back := by
  rw [piecesText]
  simp only [bind_eq_ok_iff, pure_eq_ok_iff]
  constructor
  · rintro ⟨front, hfront, back, hback, rfl⟩
    exact ⟨front, back, hfront, hback, rfl⟩
  · rintro ⟨front, back, hfront, hback, rfl⟩
    exact ⟨front, hfront, back, hback, rfl⟩

/-- A line without placeholders stays what it is. -/
theorem piecesText_map_char (cs : List Char) : env.piecesText (cs.map .char) = .ok cs := by
  induction cs with
  | nil => rfl
  | cons c cs ih => exact piecesText_cons_eq_ok_iff.mpr ⟨[c], cs, rfl, ih, rfl⟩

/-- **A line whose placeholders are filled in** is still one line, none of its
braces is closed, and it is empty only if it was. A brace that is still open goes
with the text behind it. -/
theorem unclosed_of_piecesText {opened : Option (List Char)} {cs : List Char}
    (hopened : ∀ name, opened = some name → '\x7d' ∉ name ∧ '\n' ∉ name) (hcs : '\n' ∉ cs)
    (h : env.piecesText (Embed.piecesFrom opened cs) = .ok text) :
    '\n' ∉ text ∧ Text.Unclosed text ∧ (opened = none → cs ≠ [] → text ≠ [])
      ∧ (opened ≠ none → text ≠ []) := by
  fun_induction Embed.piecesFrom opened cs generalizing text with
  | case1 =>
    cases h
    exact ⟨List.not_mem_nil, trivial, fun _ hne => hne, fun hne => absurd rfl hne⟩
  | case2 cs ih =>
    obtain ⟨hnewline, hunclosed, -, hne⟩ := ih (by simp) (List.not_mem_of_not_mem_cons hcs) h
    exact ⟨hnewline, hunclosed, fun _ _ => hne (by simp), fun hne => absurd rfl hne⟩
  | case3 c cs hc ih =>
    obtain ⟨front, back, hfront, hback, rfl⟩ := piecesText_cons_eq_ok_iff.mp h
    cases hfront
    obtain ⟨hnewline, hunclosed, -⟩ := ih nofun (List.not_mem_of_not_mem_cons hcs) hback
    refine ⟨?_, ⟨fun hbrace => absurd hbrace hc, hunclosed⟩, ?_, fun hne => absurd rfl hne⟩
    · exact List.not_mem_cons_of_ne_of_not_mem (List.ne_of_not_mem_cons hcs) hnewline
    · exact fun _ _ => List.cons_ne_nil c back
  | case4 name =>
    -- the brace was never closed, and it is copied with all that follows it
    rw [← List.map_cons, piecesText_map_char] at h
    cases h
    obtain ⟨hclosing, hnewline⟩ := hopened name rfl
    rw [← List.mem_reverse] at hclosing hnewline
    refine ⟨List.not_mem_cons_of_ne_of_not_mem (by decide) hnewline,
      ⟨fun _ => hclosing, Text.unclosed_of_closing_not_mem hclosing⟩, nofun, ?_⟩
    exact fun _ => List.cons_ne_nil _ _
  | case5 name cs ih =>
    obtain ⟨front, back, hfront, hback, rfl⟩ := piecesText_cons_eq_ok_iff.mp h
    obtain ⟨v, -, hfront⟩ := bind_eq_ok_iff.mp hfront
    cases hfront
    obtain ⟨hnewline, hunclosed, -⟩ := ih nofun (List.not_mem_of_not_mem_cons hcs) hback
    have hplain := Text.IsPlain.hexAddress v.address
    refine ⟨?_, .append (fun hmem => (hplain _ hmem).2 rfl) hunclosed, nofun, fun _ hnil => ?_⟩
    · rw [List.mem_append, not_or]
      exact ⟨fun hmem => (hplain _ hmem).1 rfl, hnewline⟩
    · exact (Text.isWord_hexAddress v.address).ne_nil (List.append_eq_nil_iff.mp hnil).1
  | case6 name c cs hc ih =>
    obtain ⟨hclosing, hnewline⟩ := hopened name rfl
    have hname : ∀ other, some (c :: name) = some other → '\x7d' ∉ other ∧ '\n' ∉ other := by
      rintro _ ⟨⟩
      exact ⟨List.not_mem_cons_of_ne_of_not_mem (Ne.symm hc) hclosing,
        List.not_mem_cons_of_ne_of_not_mem (List.ne_of_not_mem_cons hcs) hnewline⟩
    obtain ⟨hfree, hunclosed, -, hne⟩ := ih hname (List.not_mem_of_not_mem_cons hcs) h
    exact ⟨hfree, hunclosed, nofun, fun _ => hne (by simp)⟩

/-- **Every item of embedded assembly is a line.** -/
theorem isLine_of_embed {code : String} {f : Fragment} (h : env.embed code = .ok f) :
    ∀ item ∈ f, ∃ text, item = .raw text ∧ Text.IsLine text.toList := by
  unfold embed at h
  have hlines : ∀ l ∈ Text.lines code.toList, '\n' ∉ l :=
    fun l => Text.newline_not_mem_of_mem_lines
  generalize Text.lines code.toList = lines at h hlines
  induction lines generalizing f with
  | nil =>
    cases h
    exact List.forall_mem_nil _
  | cons line rest ih =>
    obtain ⟨hline, hrest⟩ := List.forall_mem_cons.mp hlines
    rw [embedLines] at h
    split at h
    next => exact ih h hrest
    next hne =>
      obtain ⟨text, htext, h⟩ := bind_eq_ok_iff.mp h
      obtain ⟨more, hmore, h⟩ := bind_eq_ok_iff.mp h
      cases h
      refine List.forall_mem_cons.mpr ⟨⟨_, rfl, ?_⟩, ih hmore hrest⟩
      rw [String.toList_ofList]
      have hpieces : env.piecesText (Embed.piecesFrom none (Text.trim line)) = .ok text := htext
      obtain ⟨hnewline, hunclosed, hnonempty, -⟩ :=
        unclosed_of_piecesText (by rintro _ ⟨⟩)
        (fun hc => hline (Text.mem_of_mem_trim hc)) hpieces
      exact ⟨hnonempty rfl fun hnil => hne (List.isEmpty_iff.mpr hnil), hnewline, hunclosed⟩

end Env

end RegMachine
