import HfDfs.Cgi.Http
import HfDfs.Properties.JsonPrinting

/-!
# Bodies

However a body is written, the decoders find the data it stands for.
-/

namespace HfDfs

set_option autoImplicit false

open CJson JsonText Binary64

/-! ### Bodies -/

section Bodies

/-- The body is a text of `v`, short enough for the array and the log. -/
structure HttpRequest.Carries (r : HttpRequest) (v : Datum) : Prop where
  text : ∃ g t g', Blanks g ∧ Text Blanks t v ∧ Blanks g' ∧ r.data = g ++ (t ++ g')
  length : r.data.length + 8 ≤ 4096

/-- The first member of a name, whatever its case. -/
def member (ms : List (CString × Datum)) (name : CString) : Option Datum :=
  (ms.find? fun m => m.1.map tolower = name.map tolower).map Prod.snd

/-- What the decoders see of a datum. -/
def jsonItem (v : Datum) : JsonItem := ⟨(Item.ofDatum v).valuestring, (Item.ofDatum v).valueint⟩

def objectJson (ms : List (CString × Datum)) : Json := ⟨ms.map fun m => (m.1, jsonItem m.2)⟩

variable {r : HttpRequest} {ms : List (CString × Datum)}

theorem json_ofDatum : (Item.ofDatum (.object ms)).json = objectJson ms := by
  rw [Item.ofDatum, Item.json, ofMembers_eq_map, List.map_map]
  rfl

theorem getObjectItem_objectJson (name : CString) :
    (objectJson ms).getObjectItem name = (member ms name).map jsonItem := by
  rw [Json.getObjectItem, objectJson, member, List.find?_map, Option.map_map, Option.map_map]
  rfl

/-- The parser reads the body, whatever its layout. -/
theorem HttpRequest.Carries.root (h : r.Carries (.object ms)) :
    r.root = some (some (objectJson ms)) := by
  obtain ⟨⟨g, t, g', hg, ht, hg', hdata⟩, hlength⟩ := h
  have hsize : t.length < 2 ^ 30 := by
    have := congrArg List.length hdata
    simp only [List.length_append] at this
    omega
  have hzeros : List.replicate (4096 - r.data.length) (0 : UInt8) =
      0 :: List.replicate (4095 - r.data.length) 0 := by
    rw [← List.replicate_succ]
    congr 1
    omega
  obtain ⟨d, tail, hstop, hstops⟩ := exists_stop (List.replicate (4095 - r.data.length) 0) hg'
    (closes_of_mem (c := 0) (by decide))
  have hrun : (parseWithOpts false).run (g ++ (t ++ d :: tail)) = _ :=
    run_parseWithOpts false ht hg hstops hsize
  rw [← hstop] at hrun
  rw [HttpRequest.root, hzeros, hdata, List.append_assoc, List.append_assoc, ← hdata, parse, hrun]
  exact congrArg (some ∘ some) json_ofDatum

/-- Neither the array nor the log overflows. -/
theorem HttpRequest.Carries.read (h : r.Carries (.object ms)) :
    r.read = .text (some (objectJson ms)) := by
  have hdata : r.data ≠ [] := by
    obtain ⟨⟨g, t, g', -, ht, -, hdata⟩, -⟩ := h
    obtain ⟨d, tail, rfl, -, -⟩ := text_head ht
    simp [hdata]
  have hpos : ¬ r.contentLength ≤ 0 := fun hle =>
    hdata (by rw [HttpRequest.data, Int.toNat_of_nonpos hle, List.take_zero])
  have hlog := (List.takeWhile_sublist (· ≠ 0) (l := r.data)).length_le
  have hlength := h.length
  have hfits : ¬ (4096 < r.data.length ∨ 4096 < (r.data.takeWhile (· ≠ 0)).length + 8) := by
    rw [not_or, not_lt, not_lt]
    omega
  rw [HttpRequest.read, if_neg hpos, if_neg hdata, if_neg hfits, h.root]

end Bodies

/-! ### Decoding -/

section Decoding

variable {ms : List (CString × Datum)}

theorem valueint_ofDatum {n : Int} (hmin : -2 ^ 31 ≤ n) (hmax : n < 2 ^ 31) :
    (jsonItem (.integer n)).valueint = n := by
  have hrange : |n| ≤ 2 ^ 53 := abs_le.mpr (by omega)
  exact toInt_ofInt hrange hmin hmax

/-- The arrays hold the strings of the members they are named after. -/
theorem decode_objectJson {fields : List Field} {texts : Arrays}
    (h : ∀ field ∈ fields, member ms field.name = some (.string (texts field)) ∧
      (texts field).length < field.size) (arrays : Arrays) :
    decode fields (some (objectJson ms)) arrays = some (0, arrays.write fields texts) := by
  rw [decode]
  induction fields generalizing arrays with
  | nil => rw [copyMembers, Arrays.write_nil]
  | cons field fields ih =>
    obtain ⟨⟨hmember, hlength⟩, hrest⟩ := List.forall_mem_cons.mp h
    have hcopy : strcpy field.size (jsonItem (.string (texts field))).valuestring =
        some (texts field) := if_pos hlength
    rw [copyMembers, getObjectItem_objectJson, hmember, Option.map_some]
    simp only [hcopy, Option.bind_eq_bind, Option.bind_some]
    rw [ih hrest]
    congr 2
    funext g
    by_cases hg : g ∈ fields
    · simp [Arrays.write, hg]
    · rcases eq_or_ne g field with rfl | hne
      · simp [Arrays.write, hg]
      · simp [Arrays.write, hg, hne]

end Decoding

/-! ### Clients -/

section Clients

/-- A client that writes its body as cJSON does. -/
def printedRequest (queryString : CString) (ms : List (CString × Datum)) : HttpRequest :=
  let body := valueText false (.ofDatum (.object ms)) 0
  ⟨body.length, queryString, body⟩

theorem carries_of_printed {r : HttpRequest} {ms : List (CString × Datum)}
    (h : (Datum.object ms).Writable) (hstdin : r.stdin = valueText false (.ofDatum (.object ms)) 0)
    (hcontent : r.contentLength = r.stdin.length) (hlength : r.stdin.length + 8 ≤ 4096) :
    r.Carries (.object ms) := by
  have htext : Text (Gap false) r.stdin (.object ms) := hstdin ▸ text_valueText h false 0
  have hdata : r.data = r.stdin := by
    rw [HttpRequest.data, hcontent, Int.toNat_natCast, List.take_length]
  have htext' : Text Blanks r.stdin (.object ms) :=
    htext.mono fun g (hg : Gap false g) => blanks_of_gap g hg
  refine ⟨⟨[], r.stdin, [], by simp [Blanks], htext', by simp [Blanks], by simp [hdata]⟩, ?_⟩
  rwa [hdata]

theorem carries_printedRequest {queryString : CString} {ms : List (CString × Datum)}
    (h : (Datum.object ms).Writable)
    (hlength : (printedRequest queryString ms).stdin.length + 8 ≤ 4096) :
    (printedRequest queryString ms).Carries (.object ms) :=
  carries_of_printed h rfl rfl hlength

/-- The body `x` is no JSON at all. -/
def malformed (queryString : CString) : HttpRequest := ⟨1, queryString, bytes "x"⟩

theorem read_malformed (queryString : CString) : (malformed queryString).read = .text none := by
  rfl

end Clients

end HfDfs
