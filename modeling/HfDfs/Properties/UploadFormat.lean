import HfDfs.Cgi.UploadBody
import HfDfs.Properties.Trimming

/-!
# The format of an upload

`recv_save_file` reads back what a browser writes, whatever bytes the file
has. It does not test the format: of the bodies that are not in it some
are refused, some are saved all the same, and on some it goes on from a
search that found nothing.
-/

namespace HfDfs

set_option autoImplicit false

open Searching Memory

/-! ## The parts of `recv_save_file` on a body cut into lines -/

section Lines

variable {host : Host} {boundary header line rest : CString} {fields : Fields}

theorem strncpy_of_lt {size : Nat} {text : CString} (h : text.length < size) :
    strncpy size text = .ok text := if_pos h

theorem length_sub_line (line rest : CString) :
    ((line ++ crlf ++ rest).length : Int) - (line.length + 2) = rest.length := by
  simp [crlf]
  omega

theorem drop_line (line rest : CString) : (line ++ crlf ++ rest).drop (line.length + 2) = rest :=
  List.drop_left' (by simp [crlf])

theorem take_line (line rest : CString) : (line ++ crlf ++ rest).take line.length = line := by
  rw [List.append_assoc, List.take_left]

theorem recvSaveFile_line (hlen : int32 (boundary ++ crlf ++ rest).length ≠ 0)
    (hboundary : IsLine boundary) : recvSaveFile host (boundary ++ crlf ++ rest) =
      strncpy 512 boundary >>= fun boundary => recvHeader host boundary rest rest.length := by
  rw [recvSaveFile, if_neg hlen]
  simp only [strstrBuf_crlf hboundary, Hit.checked, ok_bind, take_line, drop_line, length_sub_line]

theorem recvHeader_line (hheader : IsLine header) :
    recvHeader host boundary (header ++ crlf ++ rest) (header ++ crlf ++ rest).length =
      strncpy 512 header >>= fun _ => recvFields host.overlap (header ++ crlf ++ rest) >>=
        recvContent host boundary rest rest.length := by
  rw [recvHeader, strstrBuf_crlf hheader]
  simp only [Hit.checked, ok_bind, take_line, drop_line, length_sub_line]

theorem recvContent_line (hline : IsLine line) :
    recvContent host boundary (line ++ crlf ++ rest) (line ++ crlf ++ rest).length fields =
      match memstr (rest.drop 2) (int32 (rest.length - 2)) boundary with
      | none => .error .failed
      | some n => if host.opens fields.filename then .ok ⟨fields, n - 2, rest.drop 2⟩
          else .error .failed := by
  have hdrop : (line ++ crlf ++ rest).drop (line.length + 4) = rest.drop 2 := by
    have hend : line.length + 4 - (line ++ crlf).length = 2 := by simp [crlf]
    rw [List.drop_append, hend, List.drop_eq_nil_of_le (by simp [crlf]), List.nil_append]
  have hrest : ((line ++ crlf ++ rest).length : Int) - (line.length + 4) = rest.length - 2 := by
    simp [crlf]
    omega
  rw [recvContent, strstrBuf_crlf hline]
  simp only [Hit.unchecked, ok_bind, hdrop, hrest]
  cases memstr (rest.drop 2) (int32 (rest.length - 2)) boundary with
  | none => rfl
  | some n =>
    cases host.opens fields.filename with
    | false => rfl
    | true => rfl

end Lines

/-! ## The fields -/

/-- The first `key` in the buffer, one byte, the text and the quote that ends it. -/
inductive FieldAt (size : Nat) (key : CString) : CString → CString → CString → Prop
  | intro {front : CString} (skipped : UInt8) {text : CString} (rest : CString) :
      0 ∉ front → occurrence key (front ++ key) = some front.length →
      0 ∉ text → quote ∉ text → text.length < size →
      FieldAt size key (front ++ key ++ skipped :: (text ++ quote :: rest)) text (quote :: rest)

/-- The first `size=` in the buffer and the rest of its line. -/
inductive SizeAt : CString → CString → Prop
  | intro {front text : CString} (rest : CString) :
      0 ∉ front → occurrence (bytes "size=") (front ++ bytes "size=") = some front.length →
      IsLine text → text.length < 256 →
      SizeAt (front ++ bytes "size=" ++ (text ++ crlf ++ rest)) text

/-- Once the key is found, the field is what is before the next quote. -/
theorem recvField_found {overlap : Overlap} {size : Nat} {key front : CString} (hkey : 0 ∉ key) (hfront : 0 ∉ front)
    (hfirst : occurrence key (front ++ key) = some front.length) (behind : CString) :
    recvField overlap size key (front ++ key ++ behind) = do
      let k ← (strchrBuf (behind.drop 1) quote).unchecked
      let text ← strncpy size ((behind.drop 1).take k)
      let text ← trim overlap text
      return (text, (behind.drop 1).drop k) := by
  have hdrop : (front ++ key ++ behind).drop (front.length + key.length + 1) = behind.drop 1 := by
    rw [← List.length_append, List.drop_append, List.drop_eq_nil_of_le (by omega)]
    simp
  rw [recvField, strstrBuf_append hkey hfront hfirst]
  simp only [Hit.unchecked, ok_bind, hdrop]

theorem recvField_of_fieldAt {overlap : Overlap} {size : Nat} {key begin text value rest : CString}
    (hkey : 0 ∉ key) (h : FieldAt size key begin text rest)
    (hvalue : trimmed overlap text = some value) :
    recvField overlap size key begin = .ok (value, rest) := by
  obtain ⟨skipped, rest, hfront, hfirst, htext, hquote, hsize⟩ := h
  have hchr : strchrBuf (text ++ quote :: rest) quote = .found text.length := by
    have hfound := strstrBuf_append (by decide) htext (occurrence_singleton.mpr hquote) rest
    rwa [List.append_assoc] at hfound
  rw [recvField_found hkey hfront hfirst, List.drop_one, List.tail_cons, hchr]
  simp only [Hit.unchecked, ok_bind, List.take_left, List.drop_left, strncpy_of_lt hsize, trim,
    hvalue]
  rfl

theorem exists_fieldAt {overlap : Overlap} {size : Nat} {key begin value rest : CString}
    (hkey : 0 ∉ key) (h : recvField overlap size key begin = .ok (value, rest)) :
    ∃ text, FieldAt size key begin text rest ∧ trimmed overlap text = some value := by
  cases hfound : strstrBuf begin key with
  | null | overrun =>
    rw [recvField, hfound] at h
    cases h
  | found n =>
    obtain ⟨front, behind, rfl, rfl, hfront, hfirst⟩ := exists_of_strstrBuf hfound
    rw [recvField_found hkey hfront hfirst] at h
    cases hchr : strchrBuf (behind.drop 1) quote with
    | null | overrun =>
      rw [hchr] at h
      cases h
    | found k =>
      obtain ⟨text, rest', hbehind, rfl, htext, hquote⟩ := exists_of_strstrBuf hchr
      rw [hchr] at h
      simp only [Hit.unchecked, ok_bind, hbehind, List.append_assoc, List.take_left,
        List.drop_left] at h
      by_cases hsize : text.length < size
      · rw [strncpy_of_lt hsize, ok_bind, trim] at h
        cases hvalue : trimmed overlap text with
        | none =>
          rw [hvalue] at h
          cases h
        | some t =>
        rw [hvalue] at h
        cases h
        cases behind with
        | nil => simp at hbehind
        | cons skipped behind =>
          rw [List.drop_one, List.tail_cons, List.append_assoc] at hbehind
          subst hbehind
          exact ⟨text, ⟨skipped, rest', hfront, hfirst, htext,
            occurrence_singleton.mp hquote, hsize⟩, hvalue⟩
      · rw [strncpy, if_neg hsize] at h
        cases h

theorem recvSize_found {front : CString} (hfront : 0 ∉ front)
    (hfirst : occurrence (bytes "size=") (front ++ bytes "size=") = some front.length)
    (behind : CString) : recvSize (front ++ bytes "size=" ++ behind) = do
      let k ← (strstrBuf behind crlf).unchecked
      let tmp ← strncpy 256 (behind.take k)
      return strtol tmp := by
  have hdrop : (front ++ bytes "size=" ++ behind).drop (front.length + (bytes "size=").length) =
      behind := by
    rw [← List.length_append, List.drop_left]
  rw [recvSize, strstrBuf_append (by decide) hfront hfirst]
  simp only [Hit.unchecked, ok_bind, hdrop]

theorem recvSize_of_sizeAt {begin text : CString} (h : SizeAt begin text) :
    recvSize begin = .ok (strtol text) := by
  obtain ⟨rest, hfront, hfirst, hline, hsize⟩ := h
  rw [recvSize_found hfront hfirst, strstrBuf_crlf hline]
  simp only [Hit.unchecked, ok_bind, List.append_assoc, List.take_left, strncpy_of_lt hsize]
  rfl

theorem exists_sizeAt {begin : CString} {size : Int} (h : recvSize begin = .ok size) :
    ∃ text, SizeAt begin text ∧ size = strtol text := by
  cases hfound : strstrBuf begin (bytes "size=") with
  | null | overrun =>
    simp only [recvSize, hfound] at h
    cases h
  | found n =>
    obtain ⟨front, behind, rfl, rfl, hfront, hfirst⟩ := exists_of_strstrBuf hfound
    rw [recvSize_found hfront hfirst] at h
    cases hend : strstrBuf behind crlf with
    | null | overrun =>
      rw [hend] at h
      cases h
    | found k =>
      obtain ⟨text, rest, rfl, rfl, hline⟩ := exists_line_of_strstrBuf hend
      rw [hend] at h
      simp only [Hit.unchecked, ok_bind, List.append_assoc, List.take_left] at h
      by_cases hsize : text.length < 256
      · rw [strncpy_of_lt hsize] at h
        cases h
        exact ⟨text, ⟨rest, hfront, hfirst, hline, hsize⟩, rfl⟩
      · rw [strncpy, if_neg hsize] at h
        cases h

/-- Where the four fields are found, and their values. -/
inductive FieldsAt (overlap : Overlap) : CString → Fields → Prop
  | intro {begin k k' k'' user filename md5 size user' filename' md5' : CString} :
      FieldAt 128 (bytes "user=") begin user k → trimmed overlap user = some user' →
      FieldAt 256 (bytes "filename=") k filename k' → trimmed overlap filename = some filename' →
      FieldAt 256 (bytes "md5=") k' md5 k'' → trimmed overlap md5 = some md5' → SizeAt k'' size →
      FieldsAt overlap begin ⟨user', filename', md5', strtol size⟩

theorem recvFields_eq_ok_iff {overlap : Overlap} {begin : CString} {fields : Fields} :
    recvFields overlap begin = .ok fields ↔ FieldsAt overlap begin fields := by
  constructor
  · intro h
    rw [recvFields] at h
    cases huser : recvField overlap 128 (bytes "user=") begin with
    | error stop =>
      rw [huser] at h
      cases h
    | ok found =>
    rw [huser, ok_bind] at h
    cases hfilename : recvField overlap 256 (bytes "filename=") found.2 with
    | error stop =>
      simp only [hfilename] at h
      cases h
    | ok found' =>
    simp only [hfilename, ok_bind] at h
    cases hmd5 : recvField overlap 256 (bytes "md5=") found'.2 with
    | error stop =>
      simp only [hmd5] at h
      cases h
    | ok found'' =>
    simp only [hmd5, ok_bind] at h
    cases hsize : recvSize found''.2 with
    | error stop =>
      simp only [hsize] at h
      cases h
    | ok size =>
    simp only [hsize, ok_bind] at h
    cases h
    obtain ⟨user, huserAt, huserTrim⟩ := exists_fieldAt (by decide) huser
    obtain ⟨filename, hfilenameAt, hfilenameTrim⟩ := exists_fieldAt (by decide) hfilename
    obtain ⟨md5, hmd5At, hmd5Trim⟩ := exists_fieldAt (by decide) hmd5
    obtain ⟨text, hsizeAt, rfl⟩ := exists_sizeAt hsize
    exact ⟨huserAt, huserTrim, hfilenameAt, hfilenameTrim, hmd5At, hmd5Trim, hsizeAt⟩
  · rintro ⟨huser, huserTrim, hfilename, hfilenameTrim, hmd5, hmd5Trim, hsize⟩
    rw [recvFields, recvField_of_fieldAt (by decide) huser huserTrim]
    simp only [ok_bind, recvField_of_fieldAt (by decide) hfilename hfilenameTrim,
      recvField_of_fieldAt (by decide) hmd5 hmd5Trim, recvSize_of_sizeAt hsize]
    rfl

/-! ## Reading back what was written -/

/-- The header line of an upload. -/
def contentText (user filename md5 : CString) (size : Int) : CString :=
  bytes "Content-Disposition: form-data; user=\"" ++ user ++ bytes "\"; filename=\"" ++ filename ++
    bytes "\"; md5=\"" ++ md5 ++ bytes "\"; size=" ++ decimal size

def encodeBody (boundary header line content trailer : CString) : CString :=
  boundary ++ crlf ++ header ++ crlf ++ line ++ crlf ++ crlf ++ content ++ crlf ++ boundary ++ trailer

/-- Neither CR nor LF nor NUL. -/
def Plain (text : CString) : Prop := 0 ∉ text ∧ 0x0d ∉ text ∧ 0x0a ∉ text

instance (text : CString) : Decidable (Plain text) := inferInstanceAs (Decidable (_ ∧ _ ∧ _))

theorem Plain.isLine {text : CString} (h : Plain text) : IsLine text :=
  ⟨h.1, fun hpart => h.2.1 (hpart.subset (by decide))⟩

theorem Plain.append {text text' : CString} (h : Plain text) (h' : Plain text') :
    Plain (text ++ text') := by
  refine ⟨?_, ?_, ?_⟩
  · simp [h.1, h'.1]
  · simp [h.2.1, h'.2.1]
  · simp [h.2.2, h'.2.2]

theorem plain_decimal (n : Int) : Plain (decimal n) := by
  have hmem : ∀ c ∈ decimal n, c ≠ 0 ∧ c ≠ 0x0d ∧ c ≠ 0x0a := by
    intro c hc
    rcases mem_decimal hc with hdigit | rfl
    · refine ⟨?_, ?_, ?_⟩ <;> rintro rfl <;> cases hdigit
    · decide
  exact ⟨fun h => (hmem _ h).1 rfl, fun h => (hmem _ h).2.1 rfl, fun h => (hmem _ h).2.2 rfl⟩

/-- A value that can stand between quotes in the header line, for an array of `size` bytes. -/
structure Quotable (size : Nat) (text : CString) : Prop where
  plain : Plain text
  unquoted : quote ∉ text
  fits : text.length < size

instance (size : Nat) (text : CString) : Decidable (Quotable size text) :=
  decidable_of_iff (Plain text ∧ quote ∉ text ∧ text.length < size)
    ⟨fun ⟨hplain, hquote, hsize⟩ => ⟨hplain, hquote, hsize⟩, fun h => ⟨h.plain, h.unquoted, h.fits⟩⟩

section Encode

variable {user filename md5 : CString} {size : Int}

theorem plain_contentText (huser : Plain user) (hfilename : Plain filename) (hmd5 : Plain md5) :
    Plain (contentText user filename md5 size) := by
  have hliteral : Plain (bytes "Content-Disposition: form-data; user=\"") ∧
      Plain (bytes "\"; filename=\"") ∧ Plain (bytes "\"; md5=\"") ∧
      Plain (bytes "\"; size=") := by
    decide
  obtain ⟨h, h', h'', h'''⟩ := hliteral
  exact ((((((h.append huser).append h').append hfilename).append h'').append hmd5).append
    h''').append (plain_decimal size)

theorem Quotable.fieldAt {size : Nat} {text : CString} (h : Quotable size text)
    (key front : CString) (hfront : 0 ∉ front)
    (hfirst : occurrence key (front ++ key) = some front.length) (rest : CString) :
    FieldAt size key (front ++ key ++ quote :: (text ++ quote :: rest)) text (quote :: rest) :=
  ⟨quote, rest, hfront, hfirst, h.plain.1, h.unquoted, h.fits⟩

/-- What is left of the header line, from the quote that ends each field on. -/
theorem contentText_append (rest : CString) : contentText user filename md5 size ++ crlf ++ rest =
    bytes "Content-Disposition: form-data; " ++ bytes "user=" ++ quote :: (user ++ quote ::
      (bytes "; " ++ bytes "filename=" ++ quote :: (filename ++ quote ::
        (bytes "; " ++ bytes "md5=" ++ quote :: (md5 ++ quote ::
          (bytes "; " ++ bytes "size=" ++ (decimal size ++ crlf ++ rest))))))) := by
  have huser : bytes "Content-Disposition: form-data; user=\"" =
      bytes "Content-Disposition: form-data; " ++ bytes "user=" ++ [quote] := by decide
  have hfilename : bytes "\"; filename=\"" =
      quote :: (bytes "; " ++ bytes "filename=" ++ [quote]) := by decide
  have hmd5 : bytes "\"; md5=\"" = quote :: (bytes "; " ++ bytes "md5=" ++ [quote]) := by decide
  have hsize : bytes "\"; size=" = quote :: (bytes "; " ++ bytes "size=") := by decide
  rw [contentText, huser, hfilename, hmd5, hsize]
  simp only [List.append_assoc, List.cons_append, List.nil_append]

/-- Copied byte by byte, a string that is not empty loses its blanks. -/
theorem Quotable.trimmed_eq {size : Nat} {text : CString} (h : Quotable size text)
    (hne : text ≠ []) (hsize : size ≤ 256) : trimmed .byteByByte text = some (strip text) := by
  rw [Memory.trimmed_eq _ h.plain.1 (by have := h.fits; omega), trimSpace_eq_strip, if_neg]
  rintro (hnil | ⟨hoverlap, -⟩)
  · exact hne hnil
  · cases hoverlap

theorem fieldsAt_contentText (huser : Quotable 128 user) (hfilename : Quotable 256 filename)
    (hmd5 : Quotable 256 md5) (hne : user ≠ [] ∧ filename ≠ [] ∧ md5 ≠ []) (hmin : longMin ≤ size)
    (hmax : size ≤ longMax) (rest : CString) :
    FieldsAt .byteByByte (contentText user filename md5 size ++ crlf ++ rest)
      ⟨strip user, strip filename, strip md5, size⟩ := by
  have hsizeAt : SizeAt (quote :: bytes "; " ++ bytes "size=" ++ (decimal size ++ crlf ++ rest))
      (decimal size) :=
    ⟨rest, by decide, by decide, (plain_decimal size).isLine,
      lt_of_le_of_lt (length_decimal_le hmin hmax) (by decide)⟩
  have huserAt := huser.fieldAt (bytes "user=") (bytes "Content-Disposition: form-data; ")
    (by decide) (by decide)
  have hfilenameAt := hfilename.fieldAt (bytes "filename=") (quote :: bytes "; ")
    (by decide) (by decide)
  have hmd5At := hmd5.fieldAt (bytes "md5=") (quote :: bytes "; ") (by decide) (by decide)
  have hfields := FieldsAt.intro (huserAt _) (huser.trimmed_eq hne.1 (by decide)) (hfilenameAt _)
    (hfilename.trimmed_eq hne.2.1 le_rfl) (hmd5At _) (hmd5.trimmed_eq hne.2.2 le_rfl) hsizeAt
  rw [strtol_decimal hmin hmax] at hfields
  rw [contentText_append]
  exact hfields

/-- The boundary is found behind the content, and not before. -/
theorem memstr_content {boundary content : CString} (hboundary : Plain boundary)
    (hne : boundary ≠ []) (habsent : ¬ boundary <:+: content) (trailer : CString) :
    memstr (content ++ crlf ++ boundary ++ trailer)
      (content ++ crlf ++ boundary ++ trailer).length boundary = some (content.length + 2) := by
  have htext : content ++ crlf ++ boundary ++ trailer =
      content ++ 0x0d :: 0x0a :: (boundary ++ trailer) := by simp [crlf]
  rw [htext, memstr_eq_some_iff hne]
  refine ⟨?_, ?_, fun m hm => ?_⟩
  · simp
    omega
  · have hdrop : (content ++ 0x0d :: 0x0a :: (boundary ++ trailer)).drop (content.length + 2) =
        boundary ++ trailer := by simp [List.drop_append]
    rw [hdrop]
    exact List.prefix_append _ _
  · rcases Nat.lt_succ_iff_lt_or_eq.mp hm with hlt | rfl
    · exact not_prefix_drop_append hboundary.2.1 habsent _ (by omega)
    · have hdrop : (content ++ 0x0d :: 0x0a :: (boundary ++ trailer)).drop (content.length + 1) =
          ([] ++ 0x0a :: (boundary ++ trailer)).drop 0 := by simp [List.drop_append]
      rw [hdrop]
      exact not_prefix_drop_append hboundary.2.2 (by simpa using hne) _ (Nat.zero_le _)

end Encode

/-- What may be sent. -/
structure Sendable (boundary user filename md5 : CString) (size : Int)
    (line content trailer : CString) : Prop where
  plainBoundary : Plain boundary ∧ boundary ≠ [] ∧ boundary.length < 512
  quotable : Quotable 128 user ∧ Quotable 256 filename ∧ Quotable 256 md5
  nonempty : user ≠ [] ∧ filename ≠ [] ∧ md5 ≠ []
  isLong : longMin ≤ size ∧ size ≤ longMax
  headerFits : (contentText user filename md5 size).length < 512
  plainLine : Plain line
  absent : ¬ boundary <:+: content
  lengthFits : (encodeBody boundary (contentText user filename md5 size) line content
    trailer).length < 2 ^ 31

section

variable {host : Host} {boundary user filename md5 line content trailer : CString} {size : Int}

theorem recvSaveFile_of_sendable
    (h : Sendable boundary user filename md5 size line content trailer)
    (hoverlap : host.overlap = .byteByByte) (hopens : host.opens (strip filename) = true) :
    recvSaveFile host
        (encodeBody boundary (contentText user filename md5 size) line content trailer) =
      .ok ⟨⟨strip user, strip filename, strip md5, size⟩, content.length,
        content ++ crlf ++ boundary ++ trailer⟩ := by
  obtain ⟨⟨hboundary, hne, hshort⟩, ⟨huser, hfilename, hmd5⟩, hnonempty, ⟨hmin, hmax⟩, hheader, hline,
    habsent, hlength⟩ := h
  have hbody : encodeBody boundary (contentText user filename md5 size) line content trailer =
      boundary ++ crlf ++ (contentText user filename md5 size ++ crlf ++
        (line ++ crlf ++ (crlf ++ (content ++ crlf ++ boundary ++ trailer)))) := by
    simp [encodeBody]
  rw [hbody] at hlength ⊢
  have hheaderLine : IsLine (contentText user filename md5 size) :=
    (plain_contentText huser.plain hfilename.plain hmd5.plain).isLine
  have hpos : 0 < boundary.length := List.length_pos_iff.mpr hne
  have hsum := hlength
  simp only [List.length_append] at hsum
  have hread : int32 (boundary ++ crlf ++ (contentText user filename md5 size ++ crlf ++
      (line ++ crlf ++ (crlf ++ (content ++ crlf ++ boundary ++ trailer))))).length ≠ 0 := by
    rw [int32_eq (by omega) (by omega)]
    simp only [List.length_append]
    omega
  have hdrop : (crlf ++ (content ++ crlf ++ boundary ++ trailer)).drop 2 =
      content ++ crlf ++ boundary ++ trailer := rfl
  have hlen : int32 ((crlf ++ (content ++ crlf ++ boundary ++ trailer)).length - 2) =
      (content ++ crlf ++ boundary ++ trailer).length := by
    have hcrlf : crlf.length = 2 := rfl
    rw [int32_eq] <;> simp only [List.length_append, hcrlf] <;> omega
  have hfields : recvFields host.overlap (contentText user filename md5 size ++ crlf ++
      (line ++ crlf ++ (crlf ++ (content ++ crlf ++ boundary ++ trailer)))) =
        .ok ⟨strip user, strip filename, strip md5, size⟩ := by
    rw [hoverlap]
    exact recvFields_eq_ok_iff.mpr
      (fieldsAt_contentText huser hfilename hmd5 hnonempty hmin hmax _)
  rw [recvSaveFile_line hread hboundary.isLine, strncpy_of_lt hshort, ok_bind,
    recvHeader_line hheaderLine, strncpy_of_lt hheader, ok_bind, hfields, ok_bind,
    recvContent_line hline.isLine, hdrop, hlen, memstr_content hboundary hne habsent]
  have hsub : ((content.length + 2 : Nat) : Int) - 2 = content.length := by omega
  simp only [hopens, if_true, hsub]

end

/-- At most so many bytes are written at once. -/
def linux (overlap : Overlap) : Host := ⟨overlap, fun _ => true, fun _ => [], fun n => min n 0x7ffff000⟩

theorem sendable_special_bytes :
    Sendable (bytes "bb") (bytes "mike ") (bytes "a.jpg") (bytes "md5=") 6 (bytes "Content-Type")
      [0x62, 0, 0x0d, 0x0a, 0x22, 0x62] (bytes "--") where
  plainBoundary := by decide
  quotable := by decide
  nonempty := by decide
  isLong := by decide
  headerFits := by decide
  plainLine := by decide
  absent := by decide
  lengthFits := by decide

theorem sendable_letters {n : Nat} (h : n < 2 ^ 31 - 128) :
    Sendable (bytes "b") (bytes "u") (bytes "f") (bytes "m") 1 [] (List.replicate n 0x61) [] where
  plainBoundary := by decide
  quotable := by decide
  nonempty := by decide
  isLong := by decide
  headerFits := by decide
  plainLine := by decide
  absent hpart := by
    have hmem := List.eq_of_mem_replicate (hpart.subset (by decide : (0x62 : UInt8) ∈ bytes "b"))
    exact absurd hmem (by decide)
  lengthFits := by
    have hheader : (contentText (bytes "u") (bytes "f") (bytes "m") 1).length = 71 := by decide
    simp only [encodeBody, List.length_append, List.length_replicate, hheader]
    have hcrlf : crlf.length = 2 := rfl
    have hboundary : (bytes "b").length = 1 := by decide
    rw [hcrlf, hboundary, List.length_nil]
    omega

/-- A `write` that stops early leaves the zeros of `ftruncate`. -/
theorem zero_mem_file {n : Nat} (h : 0x7ffff000 < n) {r : Received} (hlen : r.contentLen = n) :
    0 ∈ r.file (linux .byteByByte) := by
  have hmin : min (min n 0x7ffff000) n = 0x7ffff000 := by omega
  rw [Received.file, hlen, Int.toNat_natCast]
  refine List.mem_append_right _ ?_
  simp only [linux, hmin, List.nil_append, List.take_replicate, List.drop_replicate, Nat.min_self]
  exact List.mem_replicate.mpr ⟨by omega, rfl⟩

end HfDfs
