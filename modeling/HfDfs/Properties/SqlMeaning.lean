import HfDfs.StatementTexts

/-!
# What the server reads

A statement means what its template says when the server, splitting the
text, finds the letters of the template and one literal for each `%s`,
with the string passed to `sprintf` as its value. Nothing is escaped, so
this depends on the strings.
-/

namespace HfDfs

set_option autoImplicit false

open Quoting

/-- No byte is the quote around the value, and every backslash has a `%` or a
`_` behind it. -/
def unambiguous (q : UInt8) : CString → Bool
  | [] => true
  | c :: rest => c != q && (c != 0x5c || rest.head? == some 0x25 || rest.head? == some 0x5f) &&
      unambiguous q rest

theorem plain_iff_unambiguous {q : UInt8} (hq : mysqlLexicon.isQuote q = true) (value : CString) :
    mysqlLexicon.Plain q value ↔ unambiguous q value = true := by
  have hquote := (isQuote_iff q).mp hq
  fun_induction Lexicon.Plain mysqlLexicon q value with
  | case1 => simp [unambiguous]
  | case2 c => simp [unambiguous, mysqlLexicon]
  | case3 c d rest ih ih' =>
    by_cases hc : c = mysqlLexicon.escape
    · -- the byte behind the backslash is no quote and no backslash
      have hd : mysqlLexicon.unescape d = [mysqlLexicon.escape, d] ↔ d = 0x25 ∨ d = 0x5f :=
        unescape_eq_iff d
      simp only [if_pos hc, hd, ih]
      have hc' : c = 0x5c := hc
      rcases hquote with rfl | rfl <;>
      · simp only [unambiguous, List.head?_cons, hc']
        grind
    · have hc' : c ≠ 0x5c := hc
      simp [if_neg hc, ih', unambiguous, hc']

/-! ## The templates are separated -/

def startsPlain : Template → Bool
  | [] => true
  | .lit text :: _ => (bytes text).head?.any fun c => !mysqlLexicon.isQuote c
  | _ => false

/-- The template has no quotes but those around its holes, and something
between any two of these. -/
def separated : Template → Bool
  | [] => true
  | .lit text :: rest => ((bytes text).all fun c => !mysqlLexicon.isQuote c) && separated rest
  | .num _ :: rest => separated rest
  | .str _ :: rest | .dstr _ :: rest => startsPlain rest && separated rest

theorem isQuote_decimal {n : Int} {c : UInt8} (h : c ∈ decimal n) :
    mysqlLexicon.isQuote c = false := by
  rcases mem_decimal h with hdigit | rfl
  · rw [Bool.eq_false_iff, ne_eq, isQuote_iff]
    rintro (rfl | rfl) <;> cases hdigit
  · rfl

theorem isQuote_head_of_startsPlain {template : Template} (h : startsPlain template = true) :
    ∀ c ∈ template.sprintf.head?, mysqlLexicon.isQuote c = false := by
  intro c hc
  cases template with
  | nil => cases hc
  | cons part rest =>
    cases part with
    | lit text =>
      rw [startsPlain] at h
      cases htext : bytes text with
      | nil =>
        rw [htext] at h
        cases h
      | cons d tail =>
        rw [htext] at h
        have hd : c = d := by
          simpa [Template.sprintf, Template.segments, Part.segment, render, htext, eq_comm]
            using hc
        rw [hd]
        simpa using h
    | str value | dstr value | num n => cases h

theorem wellFormed_of_separated {template : Template} (h : separated template = true) :
    mysqlLexicon.WellFormed template.segments := by
  induction template with
  | nil => exact trivial
  | cons part rest ih =>
    cases part with
    | lit text =>
      obtain ⟨htext, hrest⟩ := Bool.and_eq_true_iff.mp h
      refine ⟨?_, ih hrest⟩
      intro c hc
      simpa using List.all_eq_true.mp htext c hc
    | num n => exact ⟨fun c hc => isQuote_decimal hc, ih h⟩
    | str value | dstr value =>
      obtain ⟨hstart, hrest⟩ := Bool.and_eq_true_iff.mp h
      exact ⟨rfl, isQuote_head_of_startsPlain hstart, ih hrest⟩

theorem separated_templates {statement : Statement} {template : Template}
    (h : template ∈ statement.templates) : separated template = true := by
  have hall : statement.templates.all separated = true := by
    cases statement with
    | select q => cases q <;> rfl
    | _ => rfl
  exact List.all_eq_true.mp hall template h

theorem isQuote_of_hole {template : Template} {q : UInt8} {value : CString}
    (h : .hole q value ∈ template.segments) : mysqlLexicon.isQuote q = true := by
  obtain ⟨part, -, hpart⟩ := List.mem_map.mp h
  cases part with
  | str value | dstr value =>
    cases hpart
    rfl
  | lit text | num n => cases hpart

theorem means_iff_of_separated {template : Template} (h : separated template = true) :
    template.Means ↔ ∀ q value, .hole q value ∈ template.segments →
      unambiguous q value = true := by
  rw [Template.Means, Template.sprintf, Lexicon.lex_render_iff (wellFormed_of_separated h)]
  constructor
  · intro hplain q value hmem
    exact (plain_iff_unambiguous (isQuote_of_hole hmem) value).mp (hplain q value hmem)
  · intro hvalue q value hmem
    exact (plain_iff_unambiguous (isQuote_of_hole hmem) value).mpr (hvalue q value hmem)

/-- A statement means what its template says exactly when no string that goes
into it has the quote around it or a backslash that escapes something. -/
theorem means_iff_unambiguous (statement : Statement) (template : Template)
    (h : template ∈ statement.templates) :
    template.Means ↔ ∀ q value, .hole q value ∈ template.segments →
      unambiguous q value = true :=
  means_iff_of_separated (separated_templates h)

/-- A backslash before `%` is read as it stands. -/
theorem means_delete_percent :
    Template.Means (.lit "delete from user_file_list" ::
      whereUserMd5Filename (bytes "mike") (bytes "a1") (bytes "9\\%.pdf")) := by
  have hmem := List.mem_singleton_self (Part.lit "delete from user_file_list" ::
    whereUserMd5Filename (bytes "mike") (bytes "a1") (bytes "9\\%.pdf"))
  apply (means_iff_unambiguous
    (.deleteUserFile (bytes "mike") (bytes "a1") (bytes "9\\%.pdf")) _ hmem).mpr
  intro q value hhole
  simp only [Template.segments, whereUserMd5Filename, Part.segment, List.map_cons, List.map_nil,
    List.mem_cons, reduceCtorEq, Segment.hole.injEq, List.not_mem_nil, false_or, or_false] at hhole
  rcases hhole with ⟨rfl, rfl⟩ | ⟨rfl, rfl⟩ | ⟨rfl, rfl⟩ <;> decide

/-- `check_user_pwd` for the user name `" or "1"="1`. -/
theorem not_means_every_user :
    ∃ template ∈ (Statement.select (.userPassword (bytes "\" or \"1\"=\"1"))).templates,
      ¬ template.Means := by
  decide

end HfDfs
