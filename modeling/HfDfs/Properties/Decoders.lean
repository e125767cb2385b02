import HfDfs.Requests

/-!
# What the request decoders accept

Five decoders look up their members one after the other and copy each
string to an array. They notice a member that is missing, and neither a
member that is not a string nor one that is too long.
-/

namespace HfDfs

set_option autoImplicit false

/-- A call of a decoder, with what the arrays hold that keep their content. -/
inductive Decoder where
  | dealfile (arrays : Arrays)
  | dealsharefile (arrays : Arrays)
  | md5
  | login (user pwd : CString)
  | register

def Field.member (field : Field) : Member := ⟨field.name, field.size⟩

namespace Decoder

/-- The members a decoder needs, with the arrays of its caller, in the order of the lookups. -/
def members : Decoder → List Member
  | dealfile _ => DealFile.fields.map Field.member
  | dealsharefile _ => DealShareFile.fields.map Field.member
  | md5 => [⟨bytes "user", 128⟩, ⟨bytes "md5", 256⟩, ⟨bytes "fileName", 128⟩, ⟨bytes "token", 256⟩]
  | login _ _ => [⟨bytes "user", 512⟩, ⟨bytes "pwd", 512⟩]
  | register => Register.members

/-- The return value and the arrays in that order, `none` for undefined behaviour. -/
def run (root : Option Json) : Decoder → Option (Int × List CString)
  | dealfile arrays =>
    (DealFile.getJsonInfo root arrays).map fun out => (out.1, DealFile.fields.map out.2)
  | dealsharefile arrays =>
    (DealShareFile.getJsonInfo root arrays).map fun out => (out.1, DealShareFile.fields.map out.2)
  | md5 => (getMd5Info root).map fun info =>
    info.elim (-1, []) fun info => (0, [info.user, info.md5, info.filename, info.token])
  | login user pwd => (getLoginInfo root user pwd).map fun out => (out.1, [out.2.1, out.2.2])
  | register => (getRegInfo root).map fun texts => texts.elim (-1, []) fun texts => (0, texts)

end Decoder

/-- The member is present, is a string and is shorter than its array. -/
def Json.Has (root : Json) (m : Member) (text : CString) : Prop :=
  ∃ child, root.getObjectItem m.name = some child ∧ child.valuestring = some text ∧
    text.length < m.size

/-- The members of a well-formed request and their strings. -/
def WellFormed (members : List Member) (root : Option Json) (texts : List CString) : Prop :=
  ∃ object, root = some object ∧ List.Forall₂ object.Has members texts

/-- 0 with the member strings for a well-formed request, and -1 for any other. -/
def DecodesExactly (d : Decoder) (root : Option Json) : Prop :=
  (∀ texts, WellFormed d.members root texts → d.run root = some (0, texts)) ∧
    ((∀ texts, ¬ WellFormed d.members root texts) → ∃ arrays, d.run root = some (-1, arrays))

/-- Every member up to the first missing one is a string that fits. -/
def Json.ReachedFit (root : Json) : List Member → Prop
  | [] => True
  | m :: rest => ∀ child, root.getObjectItem m.name = some child →
      (∃ text, child.valuestring = some text ∧ text.length < m.size) ∧ root.ReachedFit rest

def decodeOk (d : Decoder) (root : Option Json) : Prop :=
  ∀ object, root = some object → object.ReachedFit d.members

/-! ## One loop for all -/

section Loop

variable {root : Json}

theorem copyTexts_eq_some {members : List Member} {texts : List CString} :
    copyTexts root members = some (some texts) ↔ List.Forall₂ root.Has members texts := by
  induction members generalizing texts with
  | nil => simp [copyTexts, eq_comm]
  | cons m rest ih =>
    rw [List.forall₂_cons_left_iff, copyTexts]
    cases hchild : root.getObjectItem m.name with
    | none => simp [Json.Has, hchild]
    | some child =>
      cases htext : strcpy m.size child.valuestring with
      | none =>
        refine iff_of_false (by simp [htext]) ?_
        rintro ⟨text, tail, ⟨child', hchild', hvalue⟩, -⟩
        obtain rfl := Option.some.inj (hchild.symm.trans hchild')
        rw [← strcpy_eq_some, htext] at hvalue
        cases hvalue
      | some text =>
        have hhas : ∀ other, root.Has m other ↔ other = text := by
          intro other
          rw [Json.Has]
          simp only [hchild, Option.some.injEq, exists_eq_left', ← strcpy_eq_some, htext, eq_comm]
        cases hrest : copyTexts root rest with
        | none => simp [← ih, hrest]
        | some outcome =>
          cases outcome with
          | none => simp [← ih, hrest, htext]
          | some tail => simp [hhas, ← ih, hrest, htext, eq_comm]

theorem copyTexts_ne_none {members : List Member} :
    copyTexts root members ≠ none ↔ root.ReachedFit members := by
  induction members with
  | nil => simp [copyTexts, Json.ReachedFit]
  | cons m rest ih =>
    rw [copyTexts, Json.ReachedFit]
    cases hchild : root.getObjectItem m.name with
    | none => simp
    | some child =>
      cases htext : strcpy m.size child.valuestring with
      | none =>
        refine iff_of_false (by simp [htext]) fun h => ?_
        obtain ⟨⟨text, hvalue⟩, -⟩ := h child rfl
        rw [← strcpy_eq_some, htext] at hvalue
        cases hvalue
      | some text =>
        have hfits : ∃ text, child.valuestring = some text ∧ text.length < m.size :=
          ⟨text, strcpy_eq_some.mp htext⟩
        simp only [Option.some.injEq, forall_eq', and_iff_right hfits, ← ih]
        cases hrest : copyTexts root rest with
        | none => simp
        | some outcome => simp [htext]

end Loop

/-- A decoder does what the loop does. -/
def Follows (outcome : Option (Int × List CString)) (expected : Option (Option (List CString))) :
    Prop :=
  (expected = none → outcome = none) ∧
    (expected = some none → ∃ arrays, outcome = some (-1, arrays)) ∧
    ∀ texts, expected = some (some texts) → outcome = some (0, texts)

/-- One member more in front. -/
theorem Follows.cons {outcome : Option (Int × List CString)}
    {expected : Option (Option (List CString))} (h : Follows outcome expected) (text : CString) :
    Follows (outcome.map fun out => (out.1, text :: out.2))
      (expected.map fun texts => texts.map (text :: ·)) := by
  obtain ⟨hnone, hstop, hall⟩ := h
  cases expected with
  | none => simp [Follows, hnone rfl]
  | some result =>
    cases result with
    | none =>
      obtain ⟨arrays, harrays⟩ := hstop rfl
      simp [Follows, harrays]
    | some texts => simp [Follows, hall texts rfl]

theorem follows_copyMembers (root : Json) {fields : List Field} (hfields : fields.Nodup)
    (arrays : Arrays) :
    Follows ((copyMembers root fields arrays).map fun out => (out.1, fields.map out.2))
      (copyTexts root (fields.map Field.member)) := by
  induction fields generalizing arrays with
  | nil => simp [Follows, copyMembers, copyTexts]
  | cons field rest ih =>
    rw [List.nodup_cons] at hfields
    rw [List.map_cons, copyTexts, copyMembers]
    simp only [Field.member]
    cases hchild : root.getObjectItem field.name with
    | none => simp [Follows]
    | some child =>
      cases htext : strcpy field.size child.valuestring with
      | none => simp [Follows, htext]
      | some text =>
        -- the array keeps its text, since the field does not come again
        have hkeep : (copyMembers root rest (Function.update arrays field text)).map
              (fun out => (out.1, (field :: rest).map out.2)) =
            ((copyMembers root rest (Function.update arrays field text)).map
              fun out => (out.1, rest.map out.2)).map fun out => (out.1, text :: out.2) := by
          cases hout : copyMembers root rest (Function.update arrays field text) with
          | none => rfl
          | some out =>
            have hget := copyMembers_of_notMem hout hfields.1
            rw [Function.update_self] at hget
            simp [hget]
        have hcons := (ih hfields.2 (Function.update arrays field text)).cons text
        rw [← hkeep] at hcons
        simpa [htext, Option.map_eq_bind] using hcons

theorem follows_decode (root : Option Json) {fields : List Field} (hfields : fields.Nodup)
    (arrays : Arrays) :
    Follows ((decode fields root arrays).map fun out => (out.1, fields.map out.2))
      (decodeTexts (fields.map Field.member) root) := by
  cases root with
  | none => simp [Follows, decode, decodeTexts]
  | some root => exact follows_copyMembers root hfields arrays

theorem follows_getMd5Info (root : Option Json) :
    Follows (Decoder.md5.run root) (decodeTexts Decoder.md5.members root) := by
  rw [Decoder.run, Decoder.members]
  cases root with
  | none => simp [Follows, getMd5Info, decodeTexts]
  | some root =>
    simp only [decodeTexts, getMd5Info, copyTexts]
    cases huser : root.getObjectItem (bytes "user") with
    | none => simp [Follows]
    | some child1 =>
    cases huser' : strcpy 128 child1.valuestring with
    | none => simp [Follows, huser']
    | some user =>
    cases hmd5 : root.getObjectItem (bytes "md5") with
    | none => simp [Follows, huser']
    | some child2 =>
    cases hmd5' : strcpy 256 child2.valuestring with
    | none => simp [Follows, huser', hmd5']
    | some md5 =>
    cases hname : root.getObjectItem (bytes "fileName") with
    | none => simp [Follows, huser', hmd5']
    | some child3 =>
    cases hname' : strcpy 128 child3.valuestring with
    | none => simp [Follows, huser', hmd5', hname']
    | some filename =>
    cases htoken : root.getObjectItem (bytes "token") with
    | none => simp [Follows, huser', hmd5', hname']
    | some child4 =>
    cases htoken' : strcpy 256 child4.valuestring with
    | none => simp [Follows, huser', hmd5', hname', htoken']
    | some token => simp [Follows, huser', hmd5', hname', htoken']

theorem follows_getLoginInfo (root : Option Json) (user pwd : CString) :
    Follows ((Decoder.login user pwd).run root) (decodeTexts (Decoder.login user pwd).members root) := by
  rw [Decoder.run, Decoder.members]
  cases root with
  | none => simp [Follows, getLoginInfo, decodeTexts]
  | some root =>
    simp only [decodeTexts, getLoginInfo, copyTexts]
    cases huser : root.getObjectItem (bytes "user") with
    | none => simp [Follows]
    | some child1 =>
    cases huser' : strcpy 512 child1.valuestring with
    | none => simp [Follows, huser']
    | some user =>
    cases hpwd : root.getObjectItem (bytes "pwd") with
    | none => simp [Follows, huser']
    | some child2 =>
    cases hpwd' : strcpy 512 child2.valuestring with
    | none => simp [Follows, huser', hpwd']
    | some pwd => simp [Follows, huser', hpwd']

theorem follows_run (d : Decoder) (root : Option Json) :
    Follows (d.run root) (decodeTexts d.members root) := by
  cases d with
  | dealfile arrays => exact follows_decode root (by decide) arrays
  | dealsharefile arrays => exact follows_decode root (by decide) arrays
  | md5 => exact follows_getMd5Info root
  | login user pwd => exact follows_getLoginInfo root user pwd
  | register =>
    rw [Decoder.run, Decoder.members, getRegInfo]
    cases houtcome : decodeTexts Register.members root with
    | none => simp [Follows]
    | some outcome =>
      cases outcome with
      | none => simp [Follows]
      | some texts => simp [Follows]

/-! ## Exactness -/

theorem decodeTexts_eq_some {members : List Member} {root : Option Json} {texts : List CString} :
    decodeTexts members root = some (some texts) ↔ WellFormed members root texts := by
  cases root with
  | none => simp [decodeTexts, WellFormed]
  | some root =>
    rw [decodeTexts, copyTexts_eq_some, WellFormed]
    simp

theorem decodeTexts_ne_none {d : Decoder} {root : Option Json} :
    decodeTexts d.members root ≠ none ↔ decodeOk d root := by
  cases root with
  | none => simp [decodeTexts, decodeOk]
  | some root =>
    rw [decodeTexts, copyTexts_ne_none, decodeOk]
    simp

/-- For every decoder and everything the parser can return: the decoder is exact if and only if
the members it gets to are strings that fit. -/
theorem decodesExactly_iff (d : Decoder) (root : Option Json) :
    DecodesExactly d root ↔ decodeOk d root := by
  obtain ⟨hnone, hstop, hall⟩ := follows_run d root
  rw [← decodeTexts_ne_none, DecodesExactly]
  constructor
  · rintro ⟨-, hrefused⟩ hundefined
    obtain ⟨arrays, harrays⟩ := hrefused fun texts htexts => by
      rw [← decodeTexts_eq_some, hundefined] at htexts
      cases htexts
    rw [hnone hundefined] at harrays
    cases harrays
  · intro hdefined
    refine ⟨fun texts htexts => hall texts (decodeTexts_eq_some.mpr htexts), fun hrefused => ?_⟩
    cases houtcome : decodeTexts d.members root with
    | none => exact absurd houtcome hdefined
    | some outcome =>
      cases outcome with
      | none => exact hstop houtcome
      | some texts => exact absurd (decodeTexts_eq_some.mp houtcome) (hrefused texts)

/-- A login whose name is a number is not refused: the copy reads from `NULL`. -/
theorem not_decodesExactly_number :
    ¬ DecodesExactly (.login [] [])
      (some ⟨[(bytes "user", ⟨none, 1⟩), (bytes "pwd", ⟨some (bytes "p"), 0⟩)]⟩) := by
  rintro ⟨-, hrefused⟩
  obtain ⟨arrays, harrays⟩ := hrefused (by
    rintro texts ⟨object, hobject, hhas⟩
    obtain rfl := Option.some.inj hobject
    obtain ⟨text, rest, ⟨child, hchild, hvalue, -⟩, -⟩ := List.forall₂_cons_left_iff.mp hhas
    obtain rfl : (⟨none, 1⟩ : JsonItem) = child := Option.some.inj hchild
    cases hvalue)
  have hnone : (Decoder.login [] []).run
      (some ⟨[(bytes "user", ⟨none, 1⟩), (bytes "pwd", ⟨some (bytes "p"), 0⟩)]⟩) = none := by decide
  cases hnone.symm.trans harrays

end HfDfs
