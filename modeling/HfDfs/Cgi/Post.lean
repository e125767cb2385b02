import Mathlib.Logic.Function.Basic
import HfDfs.CString

/-!
# Decoding a body

What the decoders see of a parsed body: the named members of the root in
their order, none when the root is not an object. Writing behind an array or
copying from `NULL` is undefined and modelled as such.
-/

namespace HfDfs

set_option autoImplicit false

/-- `valuestring` is `NULL` for an item that is not a string. -/
structure JsonItem where
  valuestring : Option CString
  valueint : Int
deriving DecidableEq, Repr

structure Json where
  members : List (CString × JsonItem)
deriving DecidableEq, Repr

def tolower (c : UInt8) : UInt8 := if 0x41 ≤ c ∧ c ≤ 0x5a then c + 0x20 else c

/-- `cJSON_GetObjectItem`: the first member of that name, whatever its case. -/
def Json.getObjectItem (root : Json) (string : CString) : Option JsonItem :=
  (root.members.find? fun m => m.1.map tolower = string.map tolower).map Prod.snd

/-- `strcpy` into an array of `size` bytes, `none` when it is undefined. -/
def strcpy (size : Nat) (src : Option CString) : Option CString :=
  match src with
  | none => none
  | some text => if text.length < size then some text else none

theorem strcpy_eq_some {size : Nat} {src : Option CString} {text : CString} :
    strcpy size src = some text ↔ src = some text ∧ text.length < size := by
  cases src with
  | none => simp [strcpy]
  | some other =>
    rw [strcpy, Option.some.injEq]
    constructor
    · intro h
      split at h
      · cases h
        exact ⟨rfl, by assumption⟩
      · cases h
    · rintro ⟨rfl, h⟩
      rw [if_pos h]

/-- A member that a decoder looks up, and the size of the array it is copied to. -/
structure Member where
  name : CString
  size : Nat

/-- The members in the order of their lookups, each copied at once: `some none` stands for -1,
after the first that is missing, and `none` for undefined behaviour. -/
def copyTexts (root : Json) : List Member → Option (Option (List CString))
  | [] => some (some [])
  | m :: rest =>
    match root.getObjectItem m.name with
    | none => some none
    | some child => do
      let text ← strcpy m.size child.valuestring
      let texts ← copyTexts root rest
      return texts.map (text :: ·)

def decodeTexts (members : List Member) (root : Option Json) : Option (Option (List CString)) :=
  match root with
  | none => some none
  | some root => copyTexts root members

/-! ## Decoding into the arrays of `main` -/

/-- The arrays that the programs fill from a body and keep outside their accept loops. -/
inductive Field where
  | user
  | token
  | md5
  | filename
deriving DecidableEq, Repr

def Field.name : Field → CString
  | user => bytes "user"
  | token => bytes "token"
  | md5 => bytes "md5"
  | filename => bytes "filename"

def Field.size : Field → Nat
  | user => 128
  | token => 128
  | md5 => 256
  | filename => 256

abbrev Arrays := Field → CString

/-- The decoders look their members up one by one and copy each at once; a missing
member ends them with -1 and the arrays as far as they were filled. -/
def copyMembers (root : Json) : List Field → Arrays → Option (Int × Arrays)
  | [], arrays => some (0, arrays)
  | field :: rest, arrays =>
    match root.getObjectItem field.name with
    | none => some (-1, arrays)
    | some child => do
      let text ← strcpy field.size child.valuestring
      copyMembers root rest (Function.update arrays field text)

/-- The arrays once the given texts are written to some of them. -/
def Arrays.write (arrays : Arrays) (fields : List Field) (texts : Arrays) : Arrays :=
  fun field => if field ∈ fields then texts field else arrays field

def Arrays.Fits (arrays : Arrays) (fields : List Field) : Prop :=
  ∀ field ∈ fields, (arrays field).length < field.size

@[simp] theorem Arrays.write_nil (arrays texts : Arrays) : arrays.write [] texts = arrays := by
  funext field
  simp [Arrays.write]

def Arrays.also (texts : Arrays) (fields : List Field) (text : CString) : Arrays :=
  fun field => if field ∈ fields then texts field else text

theorem Arrays.write_update (arrays texts : Arrays) (field : Field) (fields : List Field)
    (text : CString) :
    Arrays.write (Function.update arrays field text) fields texts =
      arrays.write (field :: fields) (texts.also fields text) := by
  funext g
  by_cases hmem : g ∈ fields
  · simp [Arrays.write, Arrays.also, hmem]
  · by_cases hg : g = field
    · subst hg
      simp [Arrays.write, Arrays.also, hmem]
    · simp [Arrays.write, hmem, hg]

theorem Arrays.Fits.also {texts : Arrays} {fields : List Field} (h : texts.Fits fields)
    {field : Field} {text : CString} (htext : text.length < field.size) :
    (texts.also fields text).Fits (field :: fields) := by
  intro g hg
  by_cases hmem : g ∈ fields
  · simpa [Arrays.also, hmem] using h g hmem
  · obtain rfl : g = field := by simpa [hmem] using hg
    simpa [Arrays.also, hmem] using htext

/-- A decoder is undefined, or it writes all its arrays, or it stops at one of them. -/
theorem copyMembers_cases (root : Json) (fields : List Field) :
    (∀ arrays, copyMembers root fields arrays = none) ∨
    (∃ texts : Arrays, texts.Fits fields ∧
      ∀ arrays, copyMembers root fields arrays = some (0, arrays.write fields texts)) ∨
    (∃ (copied rest : List Field) (texts : Arrays), fields = copied ++ rest ∧ rest ≠ [] ∧
      texts.Fits copied ∧
      ∀ arrays, copyMembers root fields arrays = some (-1, arrays.write copied texts)) := by
  induction fields with
  | nil => exact Or.inr (Or.inl ⟨fun _ => [], by simp [Arrays.Fits], by simp [copyMembers]⟩)
  | cons field fields ih =>
    cases hchild : root.getObjectItem field.name with
    | none =>
      exact Or.inr (Or.inr ⟨[], field :: fields, fun _ => [], rfl, by simp, by simp [Arrays.Fits],
        by simp [copyMembers, hchild]⟩)
    | some child =>
      cases htext : strcpy field.size child.valuestring with
      | none => exact Or.inl fun arrays => by simp [copyMembers, hchild, htext]
      | some text =>
        have hsize := (strcpy_eq_some.mp htext).2
        have hstep : ∀ arrays, copyMembers root (field :: fields) arrays =
            copyMembers root fields (Function.update arrays field text) := fun arrays => by
          simp [copyMembers, hchild, htext]
        rcases ih with hnone | ⟨texts, hfits, hall⟩ | ⟨copied, rest, texts, rfl, hrest, hfits, hstop⟩
        · exact Or.inl fun arrays => by rw [hstep, hnone]
        · refine Or.inr (Or.inl ⟨texts.also fields text, hfits.also hsize, fun arrays => ?_⟩)
          rw [hstep, hall, Arrays.write_update]
        · refine Or.inr (Or.inr ⟨field :: copied, rest, texts.also copied text, rfl, hrest,
            hfits.also hsize, fun arrays => ?_⟩)
          rw [hstep, hstop, Arrays.write_update]

theorem copyMembers_of_notMem {root : Json} {fields : List Field} {arrays arrays' : Arrays}
    {ret : Int} (h : copyMembers root fields arrays = some (ret, arrays')) {field : Field}
    (hfield : field ∉ fields) : arrays' field = arrays field := by
  induction fields generalizing arrays with
  | nil =>
    rw [copyMembers, Option.some.injEq, Prod.mk.injEq] at h
    rw [h.2]
  | cons first rest ih =>
    rw [List.mem_cons, not_or] at hfield
    cases hchild : root.getObjectItem first.name with
    | none =>
      simp only [copyMembers, hchild, Option.some.injEq, Prod.mk.injEq] at h
      rw [h.2]
    | some child =>
      cases htext : strcpy first.size child.valuestring with
      | none => simp [copyMembers, hchild, htext] at h
      | some text =>
        have hrest : copyMembers root rest (Function.update arrays first text) =
            some (ret, arrays') := by simpa [copyMembers, hchild, htext] using h
        rw [ih hrest hfield.2, Function.update_of_ne hfield.1]

/-- After complete decoding an array holds the string of its member. -/
theorem copyMembers_get {root : Json} {fields : List Field} {arrays arrays' : Arrays}
    (h : copyMembers root fields arrays = some (0, arrays')) {field : Field}
    (hfield : field ∈ fields) :
    ∃ child, root.getObjectItem field.name = some child ∧
      child.valuestring = some (arrays' field) := by
  induction fields generalizing arrays with
  | nil => cases hfield
  | cons first rest ih =>
    cases hchild : root.getObjectItem first.name with
    | none => simp [copyMembers, hchild] at h
    | some child =>
      cases htext : strcpy first.size child.valuestring with
      | none => simp [copyMembers, hchild, htext] at h
      | some text =>
        have hrest : copyMembers root rest (Function.update arrays first text) =
            some (0, arrays') := by simpa [copyMembers, hchild, htext] using h
        by_cases hmem : field ∈ rest
        · exact ih hrest hmem
        · obtain rfl : field = first := by simpa [hmem] using hfield
          refine ⟨child, hchild, ?_⟩
          rw [copyMembers_of_notMem hrest hmem, Function.update_self]
          exact (strcpy_eq_some.mp htext).1

def decode (fields : List Field) (root : Option Json) (arrays : Arrays) : Option (Int × Arrays) :=
  match root with
  | none => some (-1, arrays)
  | some root => copyMembers root fields arrays

theorem decode_cases {fields : List Field} (hfields : fields ≠ []) (root : Option Json) :
    (∀ arrays, decode fields root arrays = none) ∨
    (∃ texts : Arrays, texts.Fits fields ∧
      ∀ arrays, decode fields root arrays = some (0, arrays.write fields texts)) ∨
    (∃ (copied rest : List Field) (texts : Arrays), fields = copied ++ rest ∧ rest ≠ [] ∧
      texts.Fits copied ∧
      ∀ arrays, decode fields root arrays = some (-1, arrays.write copied texts)) := by
  cases root with
  | some root => exact copyMembers_cases root fields
  | none =>
    exact Or.inr (Or.inr ⟨[], fields, fun _ => [], rfl, hfields, by simp [Arrays.Fits],
      by simp [decode]⟩)

/-- Whether decoding is defined depends on the body alone. -/
theorem decode_ne_none {fields : List Field} (hfields : fields ≠ []) {root : Option Json}
    {arrays : Arrays} (h : decode fields root arrays ≠ none) (arrays' : Arrays) :
    ∃ decoded, decode fields root arrays' = some decoded := by
  rcases decode_cases hfields root with
    hnone | ⟨texts, -, hall⟩ | ⟨copied, rest, texts, -, -, -, hstop⟩
  · exact absurd (hnone arrays) h
  · exact ⟨_, hall arrays'⟩
  · exact ⟨_, hstop arrays'⟩

/-- Every member is there, is a string and fits. -/
def Complete (fields : List Field) (root : Option Json) : Prop :=
  ∃ arrays, decode fields root (fun _ => []) = some (0, arrays)

theorem Complete.texts {fields : List Field} (hfields : fields ≠ []) {root : Option Json}
    (h : Complete fields root) :
    ∃ texts : Arrays, texts.Fits fields ∧
      ∀ arrays, decode fields root arrays = some (0, arrays.write fields texts) := by
  obtain ⟨arrays, harrays⟩ := h
  rcases decode_cases hfields root with hnone | hall | ⟨copied, rest, texts, -, -, -, hstop⟩
  · simp [hnone] at harrays
  · exact hall
  · simp [hstop] at harrays

/-- Where decoding is incomplete, the last array is what it was before. -/
theorem stopped_of_not_complete (fields : List Field) {last : Field} (hlast : last ∉ fields)
    {root : Option Json} (h : ¬ Complete (fields ++ [last]) root) :
    (∀ arrays, decode (fields ++ [last]) root arrays = none) ∨
    ∃ (copied : List Field) (texts : Arrays), last ∉ copied ∧ texts.Fits copied ∧
      ∀ arrays, decode (fields ++ [last]) root arrays = some (-1, arrays.write copied texts) := by
  rcases decode_cases (by simp : fields ++ [last] ≠ []) root with
    hnone | ⟨texts, -, hall⟩ | ⟨copied, rest, texts, hfields, hrest, hfits, hstop⟩
  · exact Or.inl hnone
  · exact absurd ⟨_, hall _⟩ h
  · obtain rfl | ⟨init, x, rfl⟩ := List.eq_nil_or_concat rest
    · exact absurd rfl hrest
    · rw [List.concat_eq_append, ← List.append_assoc] at hfields
      have hinit := (List.append_inj' hfields rfl).1
      refine Or.inr ⟨copied, texts, fun hmem => hlast ?_, hfits, hstop⟩
      rw [hinit]
      exact List.mem_append_left init hmem

end HfDfs
