import HfDfs.Properties.UploadFormat

/-!
# Which bodies `recv_save_file` accepts

It should save bodies of the upload format only and refuse all others.
The condition under which it does so says, search by search, what the body
has to look like where the code does not check.
-/

namespace HfDfs

set_option autoImplicit false

open Searching Memory

/-- A `Content-Disposition` line with the four fields, in their order. -/
def HasFields (header : CString) : Prop :=
  bytes "Content-Disposition" <+: header ∧
  ∃ front user gap filename gap' md5 gap'' size, header =
    front ++ bytes "user=\"" ++ user ++ [quote] ++ gap ++ bytes "filename=\"" ++ filename ++ [quote] ++
      gap' ++ bytes "md5=\"" ++ md5 ++ [quote] ++ gap'' ++ bytes "size=" ++ size

def Format (body : CString) : Prop :=
  ∃ boundary header line content trailer,
    body = encodeBody boundary header line content trailer ∧
    ¬ crlf <:+: boundary ∧ ¬ crlf <:+: header ∧ ¬ crlf <:+: line ∧ HasFields header

/-- A body is refused, or it is in the format and the length of its content is one. -/
def Proper (body : CString) : Except Stop Received → Prop
  | .ok r => Format body ∧ 0 ≤ r.contentLen
  | .error .failed => True
  | .error .undefined => False

def AcceptsFormat (host : Host) (body : CString) : Prop :=
  Proper body (recvSaveFile host body)

/-- What has to hold of the bytes behind the third line: the boundary is not there, the file
cannot be opened, or everything is as the format has it. -/
def contentOk (host : Host) (boundary header rest : CString) (fields : Fields) : Prop :=
  memstr (rest.drop 2) (int32 (rest.length - 2)) boundary = none ∨ host.opens fields.filename = false ∨
    HasFields header ∧ crlf <+: rest ∧ crlf ++ boundary <:+: rest.drop 2 ∧
      ¬ boundary <+: rest.drop 2 ∧ ¬ boundary <+: rest.drop 3

inductive FormatOk (host : Host) : CString → Prop
  | unread {body : CString} : int32 body.length = 0 → FormatOk host body
  | noBoundary {front : CString} (rest : CString) :
      0 ∉ front → ¬ crlf <:+: front → FormatOk host (front ++ 0 :: rest)
  | noHeader {boundary front : CString} (rest : CString) :
      IsLine boundary → boundary.length < 512 → 0 ∉ front → ¬ crlf <:+: front →
      FormatOk host (boundary ++ crlf ++ (front ++ 0 :: rest))
  | parsed {boundary header line rest : CString} {fields : Fields} :
      IsLine boundary → boundary.length < 512 → IsLine header → header.length < 512 →
      FieldsAt host.overlap (header ++ crlf ++ (line ++ crlf ++ rest)) fields → IsLine line →
      contentOk host boundary header rest fields →
      FormatOk host (boundary ++ crlf ++ (header ++ crlf ++ (line ++ crlf ++ rest)))

/-! ## The format of a body cut into lines -/

theorem line_append_inj {line line' rest rest' : CString} (h : ¬ crlf <:+: line)
    (h' : ¬ crlf <:+: line') (heq : line ++ crlf ++ rest = line' ++ crlf ++ rest') :
    line = line' ∧ rest = rest' := by
  have hfirst := occurrence_pair_append (by decide : (0x0d : UInt8) ≠ 0x0a) h rest
  have hfirst' := occurrence_pair_append (by decide : (0x0d : UInt8) ≠ 0x0a) h' rest'
  have hlength : line.length = line'.length := by
    have hsome := hfirst.symm.trans ((congrArg (occurrence crlf) heq).trans hfirst')
    exact Option.some.inj hsome
  rw [List.append_assoc, List.append_assoc] at heq
  obtain ⟨hline, hrest⟩ := List.append_inj heq hlength
  exact ⟨hline, List.append_cancel_left hrest⟩

section Lines

variable {host : Host} {boundary header line rest : CString} {fields : Fields}

theorem format_lines_iff (hboundary : ¬ crlf <:+: boundary) (hheader : ¬ crlf <:+: header)
    (hline : ¬ crlf <:+: line) :
    Format (boundary ++ crlf ++ (header ++ crlf ++ (line ++ crlf ++ rest))) ↔
      HasFields header ∧ crlf <+: rest ∧ crlf ++ boundary <:+: rest.drop 2 := by
  constructor
  · rintro ⟨boundary', header', line', content, trailer, heq, hb, hh, hl, hfields⟩
    have hsplit : encodeBody boundary' header' line' content trailer =
        boundary' ++ crlf ++ (header' ++ crlf ++ (line' ++ crlf ++
          (crlf ++ (content ++ (crlf ++ boundary') ++ trailer)))) := by
      simp [encodeBody]
    rw [hsplit] at heq
    obtain ⟨rfl, hbehind⟩ := line_append_inj hboundary hb heq
    obtain ⟨rfl, hbehind'⟩ := line_append_inj hheader hh hbehind
    obtain ⟨rfl, rfl⟩ := line_append_inj hline hl hbehind'
    exact ⟨hfields, List.prefix_append _ _, content, trailer, rfl⟩
  · rintro ⟨hfields, ⟨behind, rfl⟩, content, trailer, hbehind⟩
    refine ⟨boundary, header, line, content, trailer, ?_, hboundary, hheader, hline, hfields⟩
    have hdrop : (crlf ++ behind).drop 2 = behind := rfl
    rw [hdrop] at hbehind
    rw [← hbehind]
    simp [encodeBody]

/-- The content has no negative length exactly when the boundary does not come at once. -/
theorem two_le_iff_of_memstr {text : CString} {len : Int} {n : Nat}
    (h : memstr text len boundary = some n) :
    2 ≤ n ↔ ¬ boundary <+: text ∧ ¬ boundary <+: text.drop 1 := by
  have hne : boundary ≠ [] := by
    rintro rfl
    simp [memstr] at h
  obtain ⟨-, hfound, hfirst⟩ := (memstr_eq_some_iff hne).mp h
  constructor
  · intro hn
    exact ⟨hfirst 0 (by omega), hfirst 1 (by omega)⟩
  · rintro ⟨hzero, hone⟩
    by_contra hn
    obtain rfl | rfl : n = 0 ∨ n = 1 := by omega
    · exact hzero hfound
    · exact hone hfound

theorem acceptsFormat_lines_iff
    (hlen : int32 (boundary ++ crlf ++ (header ++ crlf ++ (line ++ crlf ++ rest))).length ≠ 0)
    (hboundary : IsLine boundary) (hshort : boundary.length < 512) (hheader : IsLine header)
    (hshort' : header.length < 512)
    (hfields : FieldsAt host.overlap (header ++ crlf ++ (line ++ crlf ++ rest)) fields) (hline : IsLine line) :
    AcceptsFormat host (boundary ++ crlf ++ (header ++ crlf ++ (line ++ crlf ++ rest))) ↔
      contentOk host boundary header rest fields := by
  rw [AcceptsFormat, recvSaveFile_line hlen hboundary, strncpy_of_lt hshort, ok_bind,
    recvHeader_line hheader, strncpy_of_lt hshort', ok_bind,
    recvFields_eq_ok_iff.mpr hfields, ok_bind, recvContent_line hline, contentOk]
  cases hmemstr : memstr (rest.drop 2) (int32 (rest.length - 2)) boundary with
  | none => exact iff_of_true trivial (Or.inl rfl)
  | some n =>
    cases hopens : host.opens fields.filename with
    | false => exact iff_of_true trivial (Or.inr (Or.inl rfl))
    | true =>
      have htwo : 0 ≤ (n : Int) - 2 ↔ 2 ≤ n := by omega
      have hafter := two_le_iff_of_memstr hmemstr
      rw [List.drop_drop] at hafter
      simp only [if_true, Proper, format_lines_iff hboundary.2 hheader.2 hline.2, htwo, hafter]
      simp [and_assoc]

end Lines

/-! ## The searches that are not checked never end with -1 -/

theorem bind_ne_failed {α β : Type} {p : Except Stop α} {f : α → Except Stop β}
    (hp : p ≠ .error .failed) (hf : ∀ a, f a ≠ .error .failed) : (p >>= f) ≠ .error .failed := by
  cases p with
  | ok a => exact hf a
  | error stop => exact fun h => hp (by rw [error_bind] at h; rw [Except.error.inj h])

theorem unchecked_ne_failed (hit : Hit) : hit.unchecked ≠ .error .failed := by
  cases hit <;> simp [Hit.unchecked]

theorem strncpy_ne_failed (size : Nat) (text : CString) : strncpy size text ≠ .error .failed := by
  rw [strncpy]
  split <;> simp

theorem trim_ne_failed (overlap : Overlap) (text : CString) :
    trim overlap text ≠ .error .failed := by
  rw [trim]
  split <;> simp

theorem recvField_ne_failed (overlap : Overlap) (size : Nat) (key begin : CString) :
    recvField overlap size key begin ≠ .error .failed := by
  refine bind_ne_failed (unchecked_ne_failed _) fun n => ?_
  refine bind_ne_failed (unchecked_ne_failed _) fun k => ?_
  refine bind_ne_failed (strncpy_ne_failed _ _) fun text => ?_
  refine bind_ne_failed (trim_ne_failed _ _) fun text => ?_
  simp [pure, Except.pure]

theorem recvSize_ne_failed (begin : CString) : recvSize begin ≠ .error .failed := by
  refine bind_ne_failed (unchecked_ne_failed _) fun n => ?_
  refine bind_ne_failed (unchecked_ne_failed _) fun k => ?_
  refine bind_ne_failed (strncpy_ne_failed _ _) fun text => ?_
  simp [pure, Except.pure]

theorem recvFields_ne_failed (overlap : Overlap) (begin : CString) :
    recvFields overlap begin ≠ .error .failed := by
  refine bind_ne_failed (recvField_ne_failed _ _ _ _) fun user => ?_
  refine bind_ne_failed (recvField_ne_failed _ _ _ _) fun filename => ?_
  refine bind_ne_failed (recvField_ne_failed _ _ _ _) fun md5 => ?_
  refine bind_ne_failed (recvSize_ne_failed _) fun size => ?_
  simp [pure, Except.pure]

theorem acceptsFormat_of_failed {host : Host} {body : CString}
    (h : recvSaveFile host body = .error .failed) : AcceptsFormat host body := by
  rw [AcceptsFormat, h]
  exact trivial

theorem not_acceptsFormat_of_undefined {host : Host} {body : CString}
    (h : recvSaveFile host body = .error .undefined) : ¬ AcceptsFormat host body := by
  rw [AcceptsFormat, h]
  exact id

section Head

variable {host : Host} {body boundary behind : CString} {stop : Stop}

theorem recvSaveFile_unread (h : int32 body.length = 0) :
    recvSaveFile host body = .error .failed := by
  rw [recvSaveFile, if_pos h]
  rfl

theorem recvSaveFile_stops (hlen : int32 body.length ≠ 0)
    (h : (strstrBuf body crlf).checked = .error stop) : recvSaveFile host body = .error stop := by
  rw [recvSaveFile, if_neg hlen]
  simp only [h, error_bind]

theorem recvHeader_stops {len : Int} (h : (strstrBuf behind crlf).checked = .error stop) :
    recvHeader host boundary behind len = .error stop := by
  simp only [recvHeader, h, error_bind]

end Head

/-- The bodies on which the header line is reached. -/
theorem formatOk_of_boundary {host : Host} {boundary behind : CString}
    (hboundary : IsLine boundary) (hshort : boundary.length < 512)
    (hlen : int32 (boundary ++ crlf ++ behind).length ≠ 0)
    (h : AcceptsFormat host (boundary ++ crlf ++ behind)) :
    FormatOk host (boundary ++ crlf ++ behind) := by
  have hrun : recvSaveFile host (boundary ++ crlf ++ behind) =
      recvHeader host boundary behind behind.length := by
    rw [recvSaveFile_line hlen hboundary, strncpy_of_lt hshort, ok_bind]
  cases hsecond : strstrBuf behind crlf with
  | null =>
    obtain ⟨front, rest, rfl, hfront, hnone⟩ := strstrBuf_eq_null_iff.mp hsecond
    exact .noHeader rest hboundary hshort hfront hnone
  | overrun =>
    refine absurd h (not_acceptsFormat_of_undefined (hrun.trans (recvHeader_stops ?_)))
    rw [hsecond, Hit.checked]
  | found n =>
    obtain ⟨header, rest, rfl, -, hheader⟩ := exists_line_of_strstrBuf hsecond
    rw [recvHeader_line hheader] at hrun
    by_cases hshort' : header.length < 512
    · rw [strncpy_of_lt hshort', ok_bind] at hrun
      cases hfields : recvFields host.overlap (header ++ crlf ++ rest) with
      | error stop =>
        rw [hfields, error_bind] at hrun
        cases stop with
        | failed => exact absurd hfields (recvFields_ne_failed _ _)
        | undefined => exact absurd h (not_acceptsFormat_of_undefined hrun)
      | ok fields =>
        rw [hfields, ok_bind] at hrun
        cases hthird : strstrBuf rest crlf with
        | null | overrun =>
          refine absurd h (not_acceptsFormat_of_undefined ?_)
          rw [hrun, recvContent, hthird, Hit.unchecked, error_bind]
        | found k =>
          obtain ⟨line, rest, rfl, -, hline⟩ := exists_line_of_strstrBuf hthird
          have hfieldsAt := recvFields_eq_ok_iff.mp hfields
          have hcontent := (acceptsFormat_lines_iff hlen hboundary hshort hheader hshort'
            hfieldsAt hline).mp h
          exact .parsed hboundary hshort hheader hshort' hfieldsAt hline hcontent
    · refine absurd h (not_acceptsFormat_of_undefined ?_)
      rw [hrun, strncpy, if_neg hshort', error_bind]

theorem acceptsFormat_of_formatOk {host : Host} {body : CString}
    (h : FormatOk host body) : AcceptsFormat host body := by
  by_cases hlen : int32 body.length = 0
  · exact acceptsFormat_of_failed (recvSaveFile_unread hlen)
  cases h with
  | unread hzero => exact absurd hzero hlen
  | noBoundary rest hfront hnone =>
    refine acceptsFormat_of_failed (recvSaveFile_stops hlen ?_)
    rw [strstrBuf_eq_null_iff.mpr ⟨_, rest, rfl, hfront, hnone⟩, Hit.checked]
  | noHeader rest hboundary hshort hfront hnone =>
    refine acceptsFormat_of_failed ?_
    rw [recvSaveFile_line hlen hboundary, strncpy_of_lt hshort, ok_bind]
    refine recvHeader_stops ?_
    rw [strstrBuf_eq_null_iff.mpr ⟨_, rest, rfl, hfront, hnone⟩, Hit.checked]
  | parsed hboundary hshort hheader hshort' hfields hline hcontent =>
    exact (acceptsFormat_lines_iff hlen hboundary hshort hheader hshort' hfields hline).mpr hcontent

theorem acceptsFormat_iff (host : Host) (body : CString) :
    AcceptsFormat host body ↔ FormatOk host body := by
  constructor
  · intro h
    by_cases hlen : int32 body.length = 0
    · exact .unread hlen
    cases hfirst : strstrBuf body crlf with
    | null =>
      obtain ⟨front, rest, rfl, hfront, hnone⟩ := strstrBuf_eq_null_iff.mp hfirst
      exact .noBoundary rest hfront hnone
    | overrun =>
      refine absurd h (not_acceptsFormat_of_undefined (recvSaveFile_stops hlen ?_))
      rw [hfirst, Hit.checked]
    | found n =>
      obtain ⟨boundary, behind, rfl, -, hboundary⟩ := exists_line_of_strstrBuf hfirst
      by_cases hshort : boundary.length < 512
      · exact formatOk_of_boundary hboundary hshort hlen h
      · refine absurd h (not_acceptsFormat_of_undefined ?_)
        rw [recvSaveFile_line hlen hboundary, strncpy, if_neg hshort, error_bind]
  · exact acceptsFormat_of_formatOk

/-- The boundary comes where the content should begin: 0 is returned, and the length of the
content is -2. -/
theorem not_acceptsFormat_no_content :
    ¬ AcceptsFormat (linux .byteByByte)
      (bytes "b" ++ crlf ++ contentText (bytes "u") (bytes "f") (bytes "m") 1 ++ crlf ++
        bytes "Content-Type: text/plain" ++ crlf ++ crlf ++ bytes "b") := by
  have hrun : recvSaveFile (linux .byteByByte)
      (bytes "b" ++ crlf ++ contentText (bytes "u") (bytes "f") (bytes "m") 1 ++ crlf ++
        bytes "Content-Type: text/plain" ++ crlf ++ crlf ++ bytes "b") =
      .ok ⟨⟨bytes "u", bytes "f", bytes "m", 1⟩, -2, bytes "b"⟩ := by
    decide +kernel
  rw [AcceptsFormat, hrun]
  rintro ⟨-, hlen⟩
  exact absurd hlen (by decide)

end HfDfs
