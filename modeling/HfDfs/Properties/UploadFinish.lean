import HfDfs.Cgi.UploadStorage

/-!
# Who finishes an upload

One process should enter the file into the tables, with the id that
`fdfs_upload_file` printed and a url made from the address that
`fdfs_file_info` printed. The condition goes through the outcomes of the
system calls: a child that cannot become its tool goes on with whatever is
in the arrays.
-/

namespace HfDfs

set_option autoImplicit false

open Searching

/-- The id is a text that the first tool printed. -/
def UploadOutcome.RealFile (env : UploadOutcome) (fileid : CString) : Prop :=
  fileid ≠ [] ∧ env.upload.execlp = true ∧ ∃ out, env.upload.output = some out ∧ fileid <:+: out

/-- The url is made from a line that the second tool printed. -/
def UploadOutcome.RealUrl (env : UploadOutcome) (fileid url : CString) : Prop :=
  ∃ side host out, (env.info side).execlp = true ∧ (env.info side).output = some out ∧
    sourceIp ++ host ++ newline <:+: out ∧ url = fileUrl host env.port fileid

/-- The processes that leave `upload_to_dstorage` with 0. -/
def UploadOutcome.uploaders (env : UploadOutcome) : List (Side × Option (Int × CString)) :=
  (uploadToDstorage env.upload []).filter fun p => p.2.any fun r => r.1 = 0

/-- Those that leave `make_file_url` with 0 go on to the tables, so they are counted with
the calls there. -/
structure FinishedOnce (env : UploadOutcome) : Prop where
  uploaders : env.uploaders.length ≤ 1
  stores : env.stores.length ≤ 1
  real : ∀ call ∈ env.stores, ∃ fileid url, call = some (fileid, url) ∧
    env.RealFile fileid ∧ env.RealUrl fileid url

/-- There is no child. -/
def Spawn.refused (w : Spawn) : Prop := w.pipe = false ∨ w.fork = false

/-- The child becomes the tool, and its output never ends. -/
def Spawn.blocked (w : Spawn) : Prop := w.execlp = true ∧ w.output = none

/-- What the parent takes for the file id. -/
def printedId (out : CString) : CString := strip ((readBuf 512 out).takeWhile (· ≠ 0))

/-- The address is found and everything fits. -/
inductive UrlAt (port fileid : CString) : CString → CString → Prop
  | intro {out front host rest : CString} :
      readBuf 512 out = front ++ sourceIp ++ (host ++ newline ++ rest) → 0 ∉ front →
      occurrence sourceIp (front ++ sourceIp) = some front.length → 0 ∉ host → 0x0a ∉ host →
      host.length < 30 → (fileUrl host port fileid).length < 512 →
      UrlAt port fileid out host

def uploadOk (env : UploadOutcome) : Prop :=
  env.upload.refused ∨
  (env.upload.execlp = false ∧ ((env.info .child).refused ∨ (env.info .child).blocked)) ∨
  env.upload.blocked ∨
  (env.upload.execlp = true ∧ ∃ out, env.upload.output = some out ∧ 0 ∈ readBuf 512 out ∧
    (printedId out = [] ∨ (env.info .parent).refused ∨ (env.info .parent).blocked ∨
      (env.info .parent).execlp = true ∧ ∃ info host, (env.info .parent).output = some info ∧
        UrlAt env.port (printedId out) info host))

/-! ## What the parent reads -/

theorem prefix_of_prefix_readBuf {size : Nat} {out l : CString} (h : l <+: readBuf size out)
    (hzero : 0 ∉ l) : l <+: out := by
  rw [readBuf] at h
  split at h
  · rcases List.prefix_concat_iff.mp h with rfl | hstarts
    · exact absurd (List.mem_append_right _ List.mem_cons_self) hzero
    · exact hstarts
  · exact h.trans (List.take_prefix _ _)

theorem readFileid_eq {out : CString} (h : 0 ∈ readBuf 512 out) :
    readFileid out = some (if printedId out = [] then -1 else 0, printedId out) := by
  simp only [readFileid, if_pos h, trimSpace_eq_strip]
  rw [printedId]
  split <;> rfl

theorem printedId_infix (out : CString) : printedId out <:+: out := by
  have hzero : 0 ∉ (readBuf 512 out).takeWhile (· ≠ 0) := by
    intro hmem
    simpa using List.mem_takeWhile_imp hmem
  have hstarts := prefix_of_prefix_readBuf (List.takeWhile_prefix _) hzero
  have hstrip : printedId out <:+: (readBuf 512 out).takeWhile (· ≠ 0) :=
    (List.rdropWhile_prefix _ _).isInfix.trans (List.dropWhile_suffix _).isInfix
  exact hstrip.trans hstarts.isInfix

/-- Once the address is found, the host is what is before the end of its line. -/
theorem readUrl_found {port fileid out front behind : CString}
    (hbuf : readBuf 512 out = front ++ sourceIp ++ behind) (hfront : 0 ∉ front)
    (hfirst : occurrence sourceIp (front ++ sourceIp) = some front.length) :
    readUrl port fileid [] out =
      match strstrBuf behind newline with
      | .found k =>
        if k < 30 ∧ (fileUrl (behind.take k) port fileid).length < 512 then
          some (0, fileUrl (behind.take k) port fileid)
        else none
      | _ => none := by
  have hdrop : (front ++ sourceIp ++ behind).drop (front.length + sourceIp.length) = behind := by
    rw [← List.length_append, List.drop_left]
  cases hend : strstrBuf behind newline <;>
    simp only [readUrl, hbuf, strstrBuf_append (by decide) hfront hfirst, hdrop, hend,
      List.nil_append]

theorem readUrl_of_urlAt {port fileid out host : CString} (h : UrlAt port fileid out host) :
    readUrl port fileid [] out = some (0, fileUrl host port fileid) := by
  obtain ⟨hbuf, hfront, hfirst, hhost, hline, hshort, hfits⟩ := h
  have hend := strstrBuf_append (by decide : 0 ∉ newline) hhost (occurrence_singleton.mpr hline)
  rw [readUrl_found hbuf hfront hfirst, hend]
  simp only [List.append_assoc, List.take_left, if_pos (And.intro hshort hfits)]

theorem exists_urlAt {port fileid out : CString} {r : Int × CString}
    (h : readUrl port fileid [] out = some r) :
    ∃ host, UrlAt port fileid out host ∧ r = (0, fileUrl host port fileid) := by
  cases hfound : strstrBuf (readBuf 512 out) sourceIp with
  | null | overrun =>
    simp only [readUrl, hfound] at h
    cases h
  | found n =>
    obtain ⟨front, behind, hbuf, -, hfront, hfirst⟩ := exists_of_strstrBuf hfound
    rw [readUrl_found hbuf hfront hfirst] at h
    cases hend : strstrBuf behind newline with
    | null | overrun =>
      rw [hend] at h
      cases h
    | found k =>
      obtain ⟨host, rest, rfl, rfl, hhost, hline⟩ := exists_of_strstrBuf hend
      rw [hend] at h
      simp only [List.append_assoc, List.take_left] at h
      split at h
      · rename_i hfits
        cases h
        exact ⟨host, ⟨hbuf, hfront, hfirst, hhost, occurrence_singleton.mp hline, hfits.1,
          hfits.2⟩, rfl⟩
      · cases h

theorem UrlAt.printed {port fileid out host : CString} (h : UrlAt port fileid out host) :
    sourceIp ++ host ++ newline <:+: out := by
  obtain ⟨hbuf, hfront, -, hhost, -, -, -⟩ := h
  rename_i front rest
  have hstarts : front ++ (sourceIp ++ host ++ newline) <+: readBuf 512 out := by
    rw [hbuf]
    exact ⟨rest, by simp⟩
  have hzero : 0 ∉ front ++ (sourceIp ++ host ++ newline) := by
    have hliteral : (0 : UInt8) ∉ sourceIp ∧ (0 : UInt8) ∉ newline := by decide
    simp [hfront, hhost, hliteral]
  obtain ⟨trailer, htrailer⟩ := prefix_of_prefix_readBuf hstarts hzero
  exact ⟨front, trailer, htrailer⟩

/-! ## The processes -/

theorem Spawn.run_refused {w : Spawn} (h : w.refused) (array : CString)
    (finish : CString → Option (Int × CString)) :
    w.run array finish = [(.parent, some (-1, array))] := by
  rw [Spawn.run]
  rcases h with hpipe | hfork
  · simp [hpipe]
  · simp [hfork]

theorem Spawn.run_exec {w : Spawn} (h : ¬ w.refused) (hexec : w.execlp = true) (array : CString)
    (finish : CString → Option (Int × CString)) :
    w.run array finish = (w.output.map fun out => (Side.parent, finish out)).toList := by
  simp only [Spawn.refused, not_or, Bool.not_eq_false] at h
  simp [Spawn.run, Spawn.read, h, hexec]

theorem Spawn.run_failed {w : Spawn} (h : ¬ w.refused) (hexec : w.execlp = false)
    (array : CString) (finish : CString → Option (Int × CString)) :
    w.run array finish = (.child, some (0, array)) ::
      (w.output.map fun _ => (Side.parent, finish [])).toList := by
  simp only [Spawn.refused, not_or, Bool.not_eq_false] at h
  simp [Spawn.run, Spawn.read, h, hexec, Function.comp_def]

section Finish

variable {w : Spawn} {port fileid : CString}

theorem finishUpload_refused (h : w.refused) : finishUpload w port fileid = [] := by
  rw [finishUpload, makeFileUrl, Spawn.run_refused h]
  rfl

/-- The child that is not the tool stores the file, with the url it has: none. -/
theorem finishUpload_failed (h : ¬ w.refused) (hexec : w.execlp = false) :
    some (fileid, []) ∈ finishUpload w port fileid := by
  rw [finishUpload, makeFileUrl, Spawn.run_failed h hexec, List.flatMap_cons]
  exact List.mem_append_left _ List.mem_cons_self

theorem finishUpload_blocked (h : w.blocked) : finishUpload w port fileid = [] := by
  by_cases hrefused : w.refused
  · exact finishUpload_refused hrefused
  · rw [finishUpload, makeFileUrl, Spawn.run_exec hrefused h.1, h.2]
    rfl

theorem finishUpload_exec (h : ¬ w.refused) (hexec : w.execlp = true) {out : CString}
    (hout : w.output = some out) :
    finishUpload w port fileid = [(readUrl port fileid [] out).map fun r => (fileid, r.2)] := by
  rw [finishUpload, makeFileUrl, Spawn.run_exec h hexec, hout]
  cases hurl : readUrl port fileid [] out with
  | none => simp [hurl]
  | some r =>
    obtain ⟨host, -, rfl⟩ := exists_urlAt hurl
    simp [hurl]

end Finish

section Stores

variable {env : UploadOutcome}

theorem stores_refused (h : env.upload.refused) : env.stores = [] := by
  rw [UploadOutcome.stores, uploadToDstorage, Spawn.run_refused h]
  rfl

/-- The parent has read nothing and gives up; the child goes on without an id. -/
theorem stores_failed (h : ¬ env.upload.refused) (hexec : env.upload.execlp = false) :
    env.stores = finishUpload (env.info .child) env.port [] := by
  rw [UploadOutcome.stores, uploadToDstorage, Spawn.run_failed h hexec]
  have hempty : readFileid [] = some (-1, []) := by decide
  cases env.upload.output with
  | none => simp
  | some out => simp [hempty]

theorem stores_unterminated (h : ¬ env.upload.refused) (hexec : env.upload.execlp = true)
    {out : CString} (hout : env.upload.output = some out) (hzero : 0 ∉ readBuf 512 out) :
    env.stores = [none] := by
  have hread : readFileid out = none := by simp only [readFileid, if_neg hzero]
  rw [UploadOutcome.stores, uploadToDstorage, Spawn.run_exec h hexec, hout]
  simp [hread]

theorem stores_exec (h : ¬ env.upload.refused) (hexec : env.upload.execlp = true) {out : CString}
    (hout : env.upload.output = some out) (hzero : 0 ∈ readBuf 512 out) :
    env.stores = if printedId out = [] then []
      else finishUpload (env.info .parent) env.port (printedId out) := by
  rw [UploadOutcome.stores, uploadToDstorage, Spawn.run_exec h hexec, hout]
  by_cases hid : printedId out = []
  · simp [readFileid_eq hzero, hid]
  · simp [readFileid_eq hzero, hid]

theorem stores_blocked (h : env.upload.blocked) : env.stores = [] := by
  by_cases hrefused : env.upload.refused
  · exact stores_refused hrefused
  · rw [UploadOutcome.stores, uploadToDstorage, Spawn.run_exec hrefused h.1, h.2]
    rfl

theorem uploaders_length_le (env : UploadOutcome) : env.uploaders.length ≤ 1 := by
  rw [UploadOutcome.uploaders, uploadToDstorage]
  by_cases hrefused : env.upload.refused
  · rw [Spawn.run_refused hrefused]
    simp
  cases hexec : env.upload.execlp with
  | true =>
    rw [Spawn.run_exec hrefused hexec]
    refine (List.length_filter_le _ _).trans ?_
    cases env.upload.output <;> simp
  | false =>
    have hempty : readFileid [] = some (-1, []) := by decide
    rw [Spawn.run_failed hrefused hexec, hempty]
    cases env.upload.output <;> simp

theorem finishedOnce_of_nil (h : env.stores = []) : FinishedOnce env := by
  refine ⟨uploaders_length_le env, ?_, ?_⟩
  · simp [h]
  · simp [h]

/-- No id, no good end. -/
theorem not_finishedOnce_of_mem {url : CString} (h : some ([], url) ∈ env.stores) :
    ¬ FinishedOnce env := by
  intro hfinished
  obtain ⟨fileid, url', heq, hfile, -⟩ := hfinished.real _ h
  cases heq
  exact hfile.1 rfl

theorem not_finishedOnce_of_undefined (h : none ∈ env.stores) : ¬ FinishedOnce env := by
  intro hfinished
  obtain ⟨fileid, url, heq, -⟩ := hfinished.real _ h
  cases heq

/-- The second tool did not start: the file is stored without a url. -/
theorem not_finishedOnce_of_no_url {fileid : CString} (h : some (fileid, []) ∈ env.stores) :
    ¬ FinishedOnce env := by
  intro hfinished
  obtain ⟨fileid', url, heq, -, side, host, out, -, -, -, hurl⟩ := hfinished.real _ h
  cases heq
  cases hurl

/-- `upload_to_dstorage` had no tool. -/
theorem finishedOnce_failed_iff (h : ¬ env.upload.refused) (hexec : env.upload.execlp = false) :
    FinishedOnce env ↔ (env.info .child).refused ∨ (env.info .child).blocked := by
  have hstores := stores_failed h hexec
  constructor
  · intro hfinished
    by_contra hnot
    obtain ⟨hrefused, hblocked⟩ := not_or.mp hnot
    cases hinfo : (env.info .child).execlp with
    | false =>
      have hmem : some ([], []) ∈ env.stores := by
        rw [hstores]
        exact finishUpload_failed hrefused hinfo
      exact not_finishedOnce_of_mem hmem hfinished
    | true =>
      cases hout : (env.info .child).output with
      | none => exact hblocked ⟨hinfo, hout⟩
      | some out =>
        rw [finishUpload_exec hrefused hinfo hout] at hstores
        cases hurl : readUrl env.port [] [] out with
        | none =>
          refine not_finishedOnce_of_undefined ?_ hfinished
          simp [hstores, hurl]
        | some r =>
          have hmem : some ([], r.2) ∈ env.stores := by simp [hstores, hurl]
          exact not_finishedOnce_of_mem hmem hfinished
  · intro hchild
    refine finishedOnce_of_nil (hstores.trans ?_)
    rcases hchild with hrefused | hblocked
    · exact finishUpload_refused hrefused
    · exact finishUpload_blocked hblocked

/-- The parent has an id. -/
theorem finishedOnce_id_iff (hexec : env.upload.execlp = true) {out : CString}
    (hout : env.upload.output = some out) (hid : printedId out ≠ [])
    (hstores : env.stores = finishUpload (env.info .parent) env.port (printedId out)) :
    FinishedOnce env ↔ (env.info .parent).refused ∨ (env.info .parent).blocked ∨
      (env.info .parent).execlp = true ∧ ∃ info host, (env.info .parent).output = some info ∧
        UrlAt env.port (printedId out) info host := by
  by_cases hrefused : (env.info .parent).refused
  · exact iff_of_true (finishedOnce_of_nil (hstores.trans (finishUpload_refused hrefused)))
      (Or.inl hrefused)
  cases hinfo : (env.info .parent).execlp with
  | false =>
    have hmem : some (printedId out, []) ∈ env.stores := by
      rw [hstores]
      exact finishUpload_failed hrefused hinfo
    refine iff_of_false (not_finishedOnce_of_no_url hmem) ?_
    simp [hrefused, Spawn.blocked, hinfo]
  | true =>
    cases hinfoOut : (env.info .parent).output with
    | none =>
      have hblocked : (env.info .parent).blocked := ⟨hinfo, hinfoOut⟩
      exact iff_of_true (finishedOnce_of_nil (hstores.trans (finishUpload_blocked hblocked)))
        (Or.inr (Or.inl hblocked))
    | some info =>
      rw [finishUpload_exec hrefused hinfo hinfoOut] at hstores
      cases hurl : readUrl env.port (printedId out) [] info with
      | none =>
        refine iff_of_false (not_finishedOnce_of_undefined (by simp [hstores, hurl])) ?_
        rintro (h | h | ⟨-, info', host, heq, hurlAt⟩)
        · exact hrefused h
        · rw [h.2] at hinfoOut
          cases hinfoOut
        · cases heq
          rw [readUrl_of_urlAt hurlAt] at hurl
          cases hurl
      | some r =>
        obtain ⟨host, hurlAt, rfl⟩ := exists_urlAt hurl
        rw [hurl, Option.map_some] at hstores
        refine iff_of_true ⟨uploaders_length_le env, by simp [hstores], ?_⟩
          (Or.inr (Or.inr ⟨rfl, info, host, rfl, hurlAt⟩))
        intro call hcall
        rw [hstores, List.mem_singleton] at hcall
        exact ⟨_, _, hcall, ⟨hid, hexec, out, hout, printedId_infix out⟩, .parent, host, info,
          hinfo, hinfoOut, hurlAt.printed, rfl⟩

end Stores

/-- Under exactly these outcomes of the system calls an upload is finished by one process at
most, and with a real file id and url. -/
theorem finishedOnce_iff (env : UploadOutcome) : FinishedOnce env ↔ uploadOk env := by
  rw [uploadOk]
  by_cases hrefused : env.upload.refused
  · exact iff_of_true (finishedOnce_of_nil (stores_refused hrefused)) (Or.inl hrefused)
  cases hexec : env.upload.execlp with
  | false =>
    rw [finishedOnce_failed_iff hrefused hexec]
    simp [hrefused, Spawn.blocked, hexec]
  | true =>
    cases hout : env.upload.output with
    | none =>
      have hblocked : env.upload.blocked := ⟨hexec, hout⟩
      exact iff_of_true (finishedOnce_of_nil (stores_blocked hblocked))
        (Or.inr (Or.inr (Or.inl hblocked)))
    | some out =>
      by_cases hzero : 0 ∈ readBuf 512 out
      · have hstores := stores_exec hrefused hexec hout hzero
        by_cases hid : printedId out = []
        · rw [if_pos hid] at hstores
          refine iff_of_true (finishedOnce_of_nil hstores) ?_
          exact Or.inr (Or.inr (Or.inr ⟨rfl, out, rfl, hzero, Or.inl hid⟩))
        · rw [if_neg hid] at hstores
          rw [finishedOnce_id_iff hexec hout hid hstores]
          simp [hrefused, Spawn.blocked, hexec, hout, hzero, hid]
      · have hstores := stores_unterminated hrefused hexec hout hzero
        refine iff_of_false (not_finishedOnce_of_undefined (by simp [hstores])) ?_
        simp [hrefused, Spawn.blocked, hexec, hout, hzero]

/-- Neither tool can be started: the child of the child stores a file without id and url. -/
theorem not_finishedOnce_no_tools :
    ¬ FinishedOnce ⟨⟨true, true, false, none⟩, fun _ => ⟨true, true, false, none⟩, bytes "80"⟩ := by
  intro h
  obtain ⟨fileid, url, heq, hfile, -⟩ := h.real (some ([], [])) (by decide)
  cases heq
  exact hfile.1 rfl

end HfDfs
