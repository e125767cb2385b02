import Mathlib.Logic.Basic
import Mathlib.Data.List.Basic

/-!
# Text with quoted literals

A text is split into the letters outside quotes and the literals between
them. Inside a literal a doubled quote stands for one, and an escape letter
takes the next letter with it. A template is a text with holes between
quotes; filled in and split again it gives back its own tokens exactly when
no value disturbs its quotes.

The converse direction counts letters: doubling and all escapes but those
that stand for themselves lose one, so a text whose tokens have as many
letters as the text has been read verbatim.
-/

namespace Quoting

set_option autoImplicit false

structure Lexicon (α : Type) where
  isQuote : α → Bool
  escape : α
  /-- the value of the escape and a letter behind it -/
  unescape : α → List α
  unescape_length : ∀ c, (unescape c).length ≤ 2
  unescape_eq : ∀ c, (unescape c).length = 2 → unescape c = [escape, c]

inductive Token (α : Type) where
  | code (c : α)
  | literal (value : List α)
deriving DecidableEq, Repr

inductive State (α : Type) where
  | outside
  | inside (q : α) (value : List α)
  | escaped (q : α) (value : List α)
  /-- behind a quote that ends the literal, unless another one follows -/
  | closing (q : α) (value : List α)

namespace Lexicon

variable {α : Type} [DecidableEq α] (L : Lexicon α)

def lex : State α → List α → Option (List (Token α))
  | .outside, [] => some []
  | .outside, c :: rest =>
    if L.isQuote c then lex (.inside c []) rest else (lex .outside rest).map (.code c :: ·)
  | .inside _ _, [] => none
  | .inside q value, c :: rest =>
    if c = q then lex (.closing q value) rest
    else if c = L.escape then lex (.escaped q value) rest
    else lex (.inside q (value ++ [c])) rest
  | .escaped _ _, [] => none
  | .escaped q value, c :: rest => lex (.inside q (value ++ L.unescape c)) rest
  | .closing _ value, [] => some [.literal value]
  | .closing q value, c :: rest =>
    if c = q then lex (.inside q (value ++ [q])) rest
    else if L.isQuote c then (lex (.inside c []) rest).map (.literal value :: ·)
    else (lex .outside rest).map fun tokens => .literal value :: .code c :: tokens

/-- A value in which no quote ends the literal and every escape stands for itself. -/
def Plain (q : α) : List α → Prop
  | [] => True
  | [c] => c ≠ q ∧ c ≠ L.escape
  | c :: d :: rest => c ≠ q ∧
    if c = L.escape then L.unescape d = [L.escape, d] ∧ Plain q rest else Plain q (d :: rest)

theorem plain_cons {q c : α} (hquote : c ≠ q) (hescape : c ≠ L.escape) {rest : List α} :
    L.Plain q (c :: rest) ↔ L.Plain q rest := by
  cases rest with
  | nil => simp [Plain, hquote, hescape]
  | cons d rest => simp [Plain, hquote, hescape]

theorem plain_escape {q d : α} (hquote : L.escape ≠ q) {rest : List α} :
    L.Plain q (L.escape :: d :: rest) ↔ L.unescape d = [L.escape, d] ∧ L.Plain q rest := by
  simp [Plain, hquote]

/-! ## Reading verbatim -/

inductive Verbatim : List α → List (Token α) → Prop
  | nil : Verbatim [] []
  | code (c : α) {text : List α} {tokens : List (Token α)} :
      Verbatim text tokens → Verbatim (c :: text) (.code c :: tokens)
  | literal {q : α} {value text : List α} {tokens : List (Token α)} :
      L.Plain q value → Verbatim text tokens →
      Verbatim (q :: (value ++ q :: text)) (.literal value :: tokens)

/-- The letters of a token, with the quotes around a literal. -/
def weight : List (Token α) → Nat
  | [] => 0
  | .code _ :: tokens => weight tokens + 1
  | .literal value :: tokens => weight tokens + value.length + 2

/-- The letters of the literal that is being read. -/
def pending : State α → Nat
  | .outside => 0
  | .inside _ value => value.length + 1
  | .escaped _ value => value.length + 2
  | .closing _ value => value.length + 2

omit [DecidableEq α] in
@[simp] theorem weight_nil : weight ([] : List (Token α)) = 0 := rfl

omit [DecidableEq α] in
@[simp] theorem weight_code (c : α) (tokens : List (Token α)) :
    weight (.code c :: tokens) = weight tokens + 1 := rfl

omit [DecidableEq α] in
@[simp] theorem weight_literal (value : List α) (tokens : List (Token α)) :
    weight (.literal value :: tokens) = weight tokens + value.length + 2 := rfl

variable {L} {text : List α} {tokens : List (Token α)}

theorem weight_le {state : State α} (h : L.lex state text = some tokens) :
    weight tokens ≤ text.length + pending state := by
  induction text generalizing state tokens with
  | nil =>
    cases state with
    | outside | closing q value =>
      cases h
      simp [pending]
    | inside q value | escaped q value => cases h
  | cons c rest ih =>
    cases state with
    | outside =>
      rw [lex] at h
      split at h
      · have hle := ih h
        simp only [pending, List.length_cons, List.length_nil] at hle ⊢
        omega
      · obtain ⟨tail, htail, rfl⟩ := Option.map_eq_some_iff.mp h
        have hle := ih htail
        simp only [pending, List.length_cons, weight_code] at hle ⊢
        omega
    | inside q value =>
      rw [lex] at h
      split at h
      · have hle := ih h
        simp only [pending, List.length_cons] at hle ⊢
        omega
      split at h
      · have hle := ih h
        simp only [pending, List.length_cons] at hle ⊢
        omega
      · have hle := ih h
        simp only [pending, List.length_cons, List.length_append, List.length_nil] at hle ⊢
        omega
    | escaped q value =>
      rw [lex] at h
      have hle := ih h
      have hlength := L.unescape_length c
      simp only [pending, List.length_cons, List.length_append] at hle ⊢
      omega
    | closing q value =>
      rw [lex] at h
      split at h
      · have hle := ih h
        simp only [pending, List.length_cons, List.length_append, List.length_nil] at hle ⊢
        omega
      split at h
      · obtain ⟨tail, htail, rfl⟩ := Option.map_eq_some_iff.mp h
        have hle := ih htail
        simp only [pending, List.length_cons, List.length_nil, weight_literal] at hle ⊢
        omega
      · obtain ⟨tail, htail, rfl⟩ := Option.map_eq_some_iff.mp h
        have hle := ih htail
        simp only [pending, List.length_cons, weight_literal, weight_code] at hle ⊢
        omega

variable (L) in
/-- What is left to read verbatim, in each state. -/
def Resumes : State α → List α → List (Token α) → Prop
  | .outside, text, tokens => L.Verbatim text tokens
  | .inside q value, text, tokens => ∃ more rest tail, text = more ++ q :: rest ∧
      tokens = .literal (value ++ more) :: tail ∧ L.Plain q more ∧ L.Verbatim rest tail
  | .escaped q value, text, tokens => ∃ d more rest tail, text = d :: (more ++ q :: rest) ∧
      L.unescape d = [L.escape, d] ∧ tokens = .literal (value ++ L.escape :: d :: more) :: tail ∧
      L.Plain q more ∧ L.Verbatim rest tail
  | .closing _ value, text, tokens => ∃ tail, tokens = .literal value :: tail ∧
      L.Verbatim text tail

theorem Resumes.verbatim {q : α} (h : L.Resumes (.inside q []) text tokens) :
    L.Verbatim (q :: text) tokens := by
  obtain ⟨more, rest, tail, rfl, rfl, hplain, hrest⟩ := h
  exact .literal hplain hrest

theorem resumes_of_weight {state : State α} (h : L.lex state text = some tokens)
    (hweight : weight tokens = text.length + pending state) : L.Resumes state text tokens := by
  induction text generalizing state tokens with
  | nil =>
    cases state with
    | outside =>
      cases h
      exact .nil
    | closing q value =>
      cases h
      exact ⟨[], rfl, .nil⟩
    | inside q value | escaped q value => cases h
  | cons c rest ih =>
    cases state with
    | outside =>
      rw [lex] at h
      split at h
      · refine (ih h ?_).verbatim
        simpa [pending, Nat.add_comm] using hweight
      · obtain ⟨tail, htail, rfl⟩ := Option.map_eq_some_iff.mp h
        exact .code c (ih htail (by simpa [pending] using hweight))
    | inside q value =>
      rw [lex] at h
      split at h
      · rename_i heq
        subst heq
        obtain ⟨tail, rfl, htail⟩ := ih h (by simp [pending] at hweight ⊢; omega)
        exact ⟨[], rest, tail, rfl, by rw [List.append_nil], trivial, htail⟩
      rename_i hquote
      split at h
      · rename_i heq
        subst heq
        obtain ⟨d, more, rest, tail, rfl, hd, rfl, hplain, htail⟩ :=
          ih h (by simp [pending] at hweight ⊢; omega)
        refine ⟨L.escape :: d :: more, rest, tail, rfl, rfl, ?_, htail⟩
        exact (L.plain_escape hquote).mpr ⟨hd, hplain⟩
      · rename_i hescape
        obtain ⟨more, rest, tail, rfl, rfl, hplain, htail⟩ :=
          ih h (by simp [pending] at hweight ⊢; omega)
        refine ⟨c :: more, rest, tail, rfl, by rw [List.append_assoc]; rfl, ?_, htail⟩
        exact (L.plain_cons hquote hescape).mpr hplain
    | escaped q value =>
      rw [lex] at h
      have hle := weight_le h
      have hlength := L.unescape_length c
      simp only [pending, List.length_append, List.length_cons] at hle hweight
      have hd : L.unescape c = [L.escape, c] := L.unescape_eq c (by omega)
      rw [hd] at h
      obtain ⟨more, rest, tail, rfl, rfl, hplain, htail⟩ :=
        ih h (by simp [pending] at hweight ⊢; omega)
      exact ⟨c, more, rest, tail, rfl, hd, by rw [List.append_assoc]; rfl, hplain, htail⟩
    | closing q value =>
      rw [lex] at h
      split at h
      · -- a doubled quote loses a letter
        have hle := weight_le h
        simp only [pending, List.length_append, List.length_cons, List.length_nil] at hle hweight
        omega
      split at h
      · obtain ⟨tail, htail, rfl⟩ := Option.map_eq_some_iff.mp h
        refine ⟨tail, rfl, (ih htail ?_).verbatim⟩
        simp only [pending, weight_literal, List.length_cons, List.length_nil] at hweight ⊢
        omega
      · obtain ⟨tail, htail, rfl⟩ := Option.map_eq_some_iff.mp h
        refine ⟨.code c :: tail, rfl, .code c (ih htail ?_)⟩
        simp only [pending, weight_literal, weight_code, List.length_cons] at hweight ⊢
        omega

/-! ## Reading a plain value -/

theorem lex_plain {q : α} {more : List α} (h : L.Plain q more) (value rest : List α) :
    L.lex (.inside q value) (more ++ rest) = L.lex (.inside q (value ++ more)) rest := by
  fun_induction Plain L q more generalizing value with
  | case1 => rw [List.nil_append, List.append_nil]
  | case2 c => rw [List.singleton_append, lex, if_neg h.1, if_neg h.2]
  | case3 c d more ih ih' =>
    obtain ⟨hquote, hrest⟩ := h
    rw [List.cons_append, lex, if_neg hquote]
    split at hrest
    · rename_i hescape
      rw [if_pos hescape, List.cons_append, lex, ih hrest.2, hrest.1, List.append_assoc, hescape]
      rfl
    · rename_i hescape
      rw [if_neg hescape, ih' hrest, List.append_assoc]
      rfl

theorem lex_closing {q : α} (value : List α) {rest : List α}
    (h : ∀ c ∈ rest.head?, L.isQuote c = false) (hq : L.isQuote q = true) :
    L.lex (.closing q value) rest = (L.lex .outside rest).map (.literal value :: ·) := by
  cases rest with
  | nil => rfl
  | cons c rest =>
    have hc : L.isQuote c = false := h c rfl
    have hne : c ≠ q := by
      rintro rfl
      rw [hq] at hc
      cases hc
    simp only [lex, if_neg hne, hc]
    cases L.lex .outside rest <;> rfl

theorem lex_text {t : List α} (h : ∀ c ∈ t, L.isQuote c = false) (rest : List α) :
    L.lex .outside (t ++ rest) = (L.lex .outside rest).map (t.map .code ++ ·) := by
  induction t with
  | nil => simp
  | cons c t ih =>
    obtain ⟨hc, ht⟩ := List.forall_mem_cons.mp h
    rw [List.cons_append, lex, hc, ih ht]
    cases L.lex .outside rest <;> rfl

end Lexicon

/-! ## Templates -/

inductive Segment (α : Type) where
  | text (t : List α)
  | hole (q : α) (value : List α)

variable {α : Type}

def render : List (Segment α) → List α
  | [] => []
  | .text t :: rest => t ++ render rest
  | .hole q value :: rest => q :: (value ++ q :: render rest)

def tokens : List (Segment α) → List (Token α)
  | [] => []
  | .text t :: rest => t.map .code ++ tokens rest
  | .hole _ value :: rest => .literal value :: tokens rest

namespace Lexicon

variable (L : Lexicon α)

/-- The text has no quotes, a hole is between two, and what follows does not begin with one. -/
def WellFormed : List (Segment α) → Prop
  | [] => True
  | .text t :: rest => (∀ c ∈ t, L.isQuote c = false) ∧ WellFormed rest
  | .hole q _ :: rest => L.isQuote q = true ∧ (∀ c ∈ (render rest).head?, L.isQuote c = false) ∧
      WellFormed rest

theorem weight_text (t : List α) (tail : List (Token α)) :
    weight (t.map .code ++ tail) = t.length + weight tail := by
  induction t with
  | nil => simp
  | cons c t ih =>
    simp only [List.map_cons, List.cons_append, weight_code, List.length_cons, ih]
    omega

theorem weight_tokens (segments : List (Segment α)) :
    weight (tokens segments) = (render segments).length := by
  induction segments with
  | nil => rfl
  | cons segment rest ih =>
    cases segment with
    | text t => rw [tokens, render, weight_text, List.length_append, ih]
    | hole q value =>
      simp only [tokens, render, weight_literal, List.length_cons, List.length_append, ih]
      omega

variable [DecidableEq α] {L}

theorem verbatim_code {c : α} {text : List α} {tail : List (Token α)}
    (h : L.Verbatim text (.code c :: tail)) : ∃ rest, text = c :: rest ∧ L.Verbatim rest tail := by
  cases h with
  | code c h => exact ⟨_, rfl, h⟩

theorem verbatim_literal {value text : List α} {tail : List (Token α)}
    (h : L.Verbatim text (.literal value :: tail)) :
    ∃ q rest, text = q :: (value ++ q :: rest) ∧ L.Plain q value ∧ L.Verbatim rest tail := by
  cases h with
  | literal hplain h => exact ⟨_, _, rfl, hplain, h⟩

theorem verbatim_text {t text : List α} {tail : List (Token α)}
    (h : L.Verbatim (t ++ text) (t.map .code ++ tail)) : L.Verbatim text tail := by
  induction t with
  | nil => exact h
  | cons c t ih =>
    obtain ⟨rest, heq, hrest⟩ := verbatim_code h
    cases heq
    exact ih hrest

theorem plain_of_verbatim {segments : List (Segment α)}
    (h : L.Verbatim (render segments) (tokens segments)) {q : α} {value : List α}
    (hmem : .hole q value ∈ segments) : L.Plain q value := by
  induction segments with
  | nil => cases hmem
  | cons segment rest ih =>
    cases segment with
    | text t =>
      rcases List.mem_cons.mp hmem with heq | hrest
      · cases heq
      · exact ih (verbatim_text h) hrest
    | hole q' value' =>
      obtain ⟨q'', text, heq, hplain, htext⟩ := verbatim_literal h
      obtain ⟨rfl, hvalue⟩ := List.cons.inj heq
      obtain ⟨-, hrender⟩ := List.cons.inj (List.append_cancel_left hvalue)
      rcases List.mem_cons.mp hmem with hhere | hrest
      · cases hhere
        exact hplain
      · exact ih (hrender ▸ htext) hrest

/-- The filled-in text has the tokens of its template exactly when the values are plain. -/
theorem lex_render_iff {segments : List (Segment α)} (hwf : L.WellFormed segments) :
    L.lex .outside (render segments) = some (tokens segments) ↔
      ∀ q value, .hole q value ∈ segments → L.Plain q value := by
  constructor
  · intro h q value hmem
    have hverbatim := resumes_of_weight h (weight_tokens segments)
    exact plain_of_verbatim hverbatim hmem
  · intro h
    induction segments with
    | nil => rfl
    | cons segment rest ih =>
      cases segment with
      | text t =>
        have hrest := ih hwf.2 fun q value hmem => h q value (List.mem_cons_of_mem _ hmem)
        rw [render, lex_text hwf.1, hrest]
        rfl
      | hole q value =>
        have hrest := ih hwf.2.2 fun q value hmem => h q value (List.mem_cons_of_mem _ hmem)
        have hplain := h q value List.mem_cons_self
        rw [render, lex, if_pos hwf.1, lex_plain hplain, List.nil_append, lex, if_pos rfl,
          lex_closing value hwf.2.1 hwf.1, hrest]
        rfl

end Lexicon

end Quoting
