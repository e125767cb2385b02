import HfDfs.Properties.Deletion

/-!
# What one user's request does to another user's files

The statements filter by user nearly everywhere. Two things are shared by
all users of a file, however: its `file_info` row, and its entries in Redis,
whose key is md5 and file name alone. A request of `u` shows to `v` exactly
through these.
-/

namespace HfDfs

set_option autoImplicit false

open Procedures Tallies Zlexcount

/-- The columns of the file list that a user is shown. -/
def Tables.listing (t : Tables) (v : CString) : List (UserFile × CString × Int × CString) :=
  (t.userFiles v).map fun x => (x.1, x.2.url, x.2.size, x.2.type)

structure Isolated (v : CString) (s t : Store) : Prop where
  listing : t.tables.listing v = s.tables.listing v
  count : t.tables.userFileCount v = s.tables.userFileCount v
  shares : t.tables.shareFileList.filter (·.user = v) = s.tables.shareFileList.filter (·.user = v)
  cache : ∀ r ∈ s.tables.shareFileList, r.user = v →
    t.redis.entry (fileid r.md5 r.filename) = s.redis.entry (fileid r.md5 r.filename)

/-- The user a request changes files for. -/
def Request.issuer : Request → Option CString
  | upload _ user _ _ _ _ _ => some user
  | dealMd5 _ user _ _ => some user
  | saveFile _ user _ _ => some user
  | shareFile _ _ user _ _ => some user
  | cancelShareFile user _ _ => some user
  | delFile _ user _ _ => some user
  | _ => none

/-- `v` shares a file under this mark. -/
def Store.sharesMark (s : Store) (v mark : CString) : Prop :=
  ∃ r ∈ s.tables.shareFileList, r.user = v ∧ fileid r.md5 r.filename = mark

instance (s : Store) (v mark : CString) : Decidable (s.sharesMark v mark) :=
  inferInstanceAs (Decidable (∃ r ∈ _, _))

def Store.hasMd5 (s : Store) (v md5 : CString) : Prop :=
  ∃ r ∈ s.tables.userFileList, r.user = v ∧ r.md5 = md5

/-- When a request does not show to `v`. -/
def isolatedOk (v : CString) (s : Store) : Request → Prop
  | .upload _ _ _ md5 _ _ _ => s.tables.fileInfo md5 = none → ¬ s.hasMd5 v md5
  | .shareFile enc _ _ md5 filename =>
    s.redis.presence (fileid md5 filename) enc = 0 → s.sharesMark v (fileid md5 filename) →
      s.redis.publicSet.score (fileid md5 filename) = some 0 ∧
      (s.tables.shared md5 filename = false → ∀ names, s.redis.hashAt FILE_NAME_HASH = some names →
        names (fileid md5 filename) = some filename)
  | .cancelShareFile _ md5 filename =>
    s.tables.userFileCount shareCountUser ≠ none → s.redis.ranked (fileid md5 filename) = true →
      ¬ s.sharesMark v (fileid md5 filename)
  | .delFile enc user md5 filename =>
    (s.redis.presence (fileid md5 filename) enc = 1 →
      s.tables.userFileCount shareCountUser ≠ none → ¬ s.sharesMark v (fileid md5 filename)) ∧
    (s.delGoesOn enc user md5 filename →
      ∀ info, s.tables.fileInfo md5 = some info → info.count = 1 → ¬ s.hasMd5 v md5)
  | _ => True

/-! ## What is filtered by user -/

theorem filter_of_kept {ρ : Type} {rows : List ρ} {keep q : ρ → Bool}
    (h : ∀ r, q r = true → keep r = true) : (rows.filter keep).filter q = rows.filter q := by
  rw [List.filter_filter]
  apply List.filter_congr
  intro r _
  cases hq : q r with
  | false => rfl
  | true => simp [h r hq]

theorem filter_map_of_kept {ρ : Type} {rows : List ρ} {f : ρ → ρ} {q : ρ → Bool}
    (hq : ∀ r, q (f r) = q r) (h : ∀ r, q r = true → f r = r) :
    (rows.map f).filter q = rows.filter q := by
  induction rows with
  | nil => rfl
  | cons r rest ih =>
    cases hr : q r with
    | false => simp [hq, hr, ih]
    | true => simp [h r hr, hr, ih]

structure Untouched (v : CString) (t t' : Tables) : Prop where
  rows : t'.userFileList.filter (·.user = v) = t.userFileList.filter (·.user = v)
  count : t'.userFileCount v = t.userFileCount v
  shares : t'.shareFileList.filter (·.user = v) = t.shareFileList.filter (·.user = v)

namespace Untouched

theorem refl (v : CString) (t : Tables) : Untouched v t t := ⟨rfl, rfl, rfl⟩

variable {u v : CString} (huv : u ≠ v)
include huv

theorem gain (t : Tables) (now md5 filename : CString) (info : FileInfo) :
    Untouched v t (t.gain now u md5 filename info) where
  rows := by simp [Tables.gain, huv]
  count := by simp [Tables.gain, raise, huv.symm]
  shares := rfl

theorem setStatus (t : Tables) (status : Int) (md5 filename : CString) :
    Untouched v t (t.setStatus status u md5 filename) where
  rows := by
    apply filter_map_of_kept
    · intro r
      split <;> rfl
    · intro r hr
      have hother : r.is u md5 filename = false := by
        simp only [decide_eq_true_eq] at hr
        simp [UserFile.is, hr, huv.symm]
      rw [if_neg (by simp [hother])]
  count := rfl
  shares := rfl

theorem share (hv : v ≠ shareCountUser) (t : Tables) (now md5 filename : CString) :
    Untouched v t (t.share now u md5 filename) where
  rows := (setStatus huv t 1 md5 filename).rows
  count := by simp [Tables.share, raise, hv]
  shares := by simp [Tables.share, huv]

theorem unshare (t : Tables) (md5 filename : CString) :
    Untouched v t (t.unshare u md5 filename) where
  rows := rfl
  count := rfl
  shares := by
    apply filter_of_kept
    intro r hr
    simp only [decide_eq_true_eq] at hr
    simp [ShareFile.is, hr, huv.symm]

theorem cancel (hv : v ≠ shareCountUser) (t : Tables) (md5 filename : CString) :
    Untouched v t ((t.setStatus 0 u md5 filename).cancel u md5 filename) where
  rows := (setStatus huv t 0 md5 filename).rows
  count := by simp [Tables.cancel, Tables.setStatus, lower, hv]
  shares := (unshare huv t md5 filename).shares

theorem delFile (hv : v ≠ shareCountUser) (s : Store) (enc : Encoding) (md5 filename : CString) :
    Untouched v s.tables ((HfDfs.delFile enc u md5 filename).run store s).2.tables where
  rows := by
    rw [userFileList_delFile]
    split
    · apply filter_of_kept
      intro r hr
      simp only [decide_eq_true_eq] at hr
      simp [UserFile.is, hr, huv.symm]
    · rfl
  count := by
    have hcounter : lowerCounter s.tables.userFileCount v = s.tables.userFileCount v := by
      simp [lowerCounter, hv]
    rw [userFileCount_delFile]
    simp only [lower]
    split <;> split <;> simp [huv.symm, hcounter]
  shares := by
    rw [shareFileList_delFile]
    split
    · exact (unshare huv s.tables md5 filename).shares
    · rfl

end Untouched

/-! ## What all users of a file share -/

section

variable {v : CString} {t t' : Tables}

theorem listing_eq (t : Tables) (v : CString) :
    t.listing v = (t.userFileList.filter (·.user = v)).filterMap fun r =>
      (t.fileInfo r.md5).map fun info => (r, info.url, info.size, info.type) := by
  rw [Tables.listing, Tables.userFiles, List.map_filterMap]
  congr 1
  funext r
  rw [Option.map_map]
  rfl

theorem listing_congr (h : Untouched v t t')
    (hinfo : ∀ r ∈ t.userFileList, r.user = v →
      (t'.fileInfo r.md5).map (fun info => (info.url, info.size, info.type)) =
        (t.fileInfo r.md5).map fun info => (info.url, info.size, info.type)) :
    t'.listing v = t.listing v := by
  rw [listing_eq, listing_eq, h.rows]
  apply List.filterMap_congr
  intro r hr
  simp only [List.mem_filter, decide_eq_true_eq] at hr
  have hshown := congrArg (Option.map fun x => (r, x)) (hinfo r hr.1 hr.2)
  simpa [Option.map_map, Function.comp_def] using hshown

/-- A listing that gains a `file_info` row is longer than before. -/
theorem listing_ne (hrows : t'.userFileList.filter (·.user = v) = t.userFileList.filter (·.user = v))
    {r : UserFile} (hr : r ∈ t.userFileList) (huser : r.user = v) {info : FileInfo}
    (hnone : t.fileInfo r.md5 = none) (hsome : t'.fileInfo r.md5 = some info) :
    t'.listing v ≠ t.listing v := by
  intro heq
  have hmem : (r, info.url, info.size, info.type) ∈ t'.listing v := by
    rw [listing_eq, hrows, List.mem_filterMap]
    exact ⟨r, List.mem_filter.mpr ⟨hr, by simpa using huser⟩, by simp [hsome]⟩
  rw [heq, listing_eq, List.mem_filterMap] at hmem
  obtain ⟨r', -, hr'⟩ := hmem
  obtain ⟨info', hinfo', hpair⟩ := Option.map_eq_some_iff.mp hr'
  obtain rfl : r' = r := congrArg Prod.fst hpair
  rw [hnone] at hinfo'
  cases hinfo'

end

section

variable {u v : CString} {s t : Store}

theorem isolated_of_same (h : Untouched v s.tables t.tables) (hinfo : t.tables.fileInfo = s.tables.fileInfo)
    (hredis : t.redis = s.redis) : Isolated v s t where
  listing := listing_congr h fun r _ _ => by rw [hinfo]
  count := h.count
  shares := h.shares
  cache r _ _ := by rw [hredis]

/-- Redis was changed at one mark at most. -/
theorem cache_iff {mark : CString}
    (hother : ∀ k, k ≠ mark → t.redis.entry k = s.redis.entry k) :
    (∀ r ∈ s.tables.shareFileList, r.user = v →
      t.redis.entry (fileid r.md5 r.filename) = s.redis.entry (fileid r.md5 r.filename)) ↔
    (s.sharesMark v mark → t.redis.entry mark = s.redis.entry mark) := by
  constructor
  · rintro hcache ⟨r, hr, huser, rfl⟩
    exact hcache r hr huser
  · intro hmark r hr huser
    rcases eq_or_ne (fileid r.md5 r.filename) mark with heq | hne
    · rw [heq]
      exact hmark ⟨r, hr, huser, heq⟩
    · exact hother _ hne

theorem isolated_iff_cache (h : Untouched v s.tables t.tables)
    (hinfo : t.tables.fileInfo = s.tables.fileInfo) {mark : CString}
    (hother : ∀ k, k ≠ mark → t.redis.entry k = s.redis.entry k) :
    Isolated v s t ↔ (s.sharesMark v mark → t.redis.entry mark = s.redis.entry mark) := by
  rw [← cache_iff hother]
  constructor
  · exact Isolated.cache
  · exact fun hcache => ⟨listing_congr h fun r _ _ => by rw [hinfo], h.count, h.shares, hcache⟩

end

section

variable {u v : CString} (huv : u ≠ v)
include huv

theorem isolated_gained {s t : Store} {now md5 filename : CString}
    (hgained : Gained now u md5 filename s t) : Isolated v s t := by
  rcases hgained with ⟨-, rfl⟩ | ⟨info, hinfo, -, rfl⟩
  · exact isolated_of_same (.refl v _) rfl rfl
  have htouched := Untouched.gain huv s.tables now md5 filename info
  refine ⟨listing_congr htouched fun r _ _ => ?_, htouched.count, htouched.shares, fun r _ _ => rfl⟩
  by_cases hr : r.md5 = md5
  · simp [Tables.gain, hr, hinfo]
  · simp [Tables.gain, hr]

theorem isolated_upload (s : Store) (now filename md5 : CString) (size : Int) (fileid url : CString) :
    Isolated v s (Request.upload now u filename md5 size fileid url |>.serve s) ↔
      (s.tables.fileInfo md5 = none → ¬ s.hasMd5 v md5) := by
  rw [Request.serve, Request.handler, run_upload, run_storeFileinfoToMysql]
  cases hinfo : s.tables.fileInfo md5 with
  | some info =>
    simp only [reduceCtorEq, false_implies, iff_true]
    exact isolated_of_same (.refl v _) rfl rfl
  | none =>
    simp only [forall_const]
    have htouched := Untouched.gain huv s.tables now md5 filename
      ⟨fileid, url, size, getFileSuffix filename, 0⟩
    constructor
    · rintro hisolated ⟨r, hr, huser, rfl⟩
      exact listing_ne htouched.rows hr huser hinfo (Function.update_self ..) hisolated.listing
    · intro hnone
      refine ⟨listing_congr htouched fun r hr huser => ?_, htouched.count, htouched.shares,
        fun r _ _ => rfl⟩
      have hne : r.md5 ≠ md5 := fun h => hnone ⟨r, hr, huser, h⟩
      simp [Tables.gain, hne]

theorem isolated_shareFile (hv : v ≠ shareCountUser) (s : Store) (enc : Encoding)
    (now md5 filename : CString) :
    Isolated v s (Request.shareFile enc now u md5 filename |>.serve s) ↔
      isolatedOk v s (.shareFile enc now u md5 filename) := by
  rw [Request.serve, Request.handler, run_shareFile, isolatedOk]
  rcases eq_or_ne (s.redis.presence (fileid md5 filename) enc) 0 with h0 | h0
  · have hz : (s.redis.zsetAt FILE_PUBLIC_ZSET).isSome :=
      Redis.zsetAt_of_presence (show s.redis.presence (fileid md5 filename) enc ≠ -1 by omega)
    rw [if_neg (by omega), if_neg (by omega)]
    cases hshared : s.tables.shared md5 filename with
    | true =>
      have hiff := isolated_iff_cache (s := s) (t := { s with redis := s.redis.rank 0 (fileid md5 filename) })
        (.refl v _) rfl fun k hk => s.redis.entry_rank_other 0 _ hk
      simp only [hiff, Redis.entry_rank_eq_iff _ _ hz, if_true]
      simp [h0]
    | false =>
      have hiff := isolated_iff_cache (s := s) (t := { s with
          tables := s.tables.share now u md5 filename
          redis := s.redis.publish 0 (fileid md5 filename) filename })
        (.share huv hv _ _ _ _) rfl fun k hk => s.redis.entry_publish_other 0 _ filename hk
      simp only [hiff, Redis.entry_publish_eq_iff _ _ _ hz, Bool.false_eq_true, if_false]
      simp [h0]
  · have hsame : Isolated v s s := isolated_of_same (.refl v _) rfl rfl
    rcases eq_or_ne (s.redis.presence (fileid md5 filename) enc) 1 with h1 | h1
    · simpa [h1] using hsame
    · simpa [h1, h0] using hsame

theorem isolated_cancelShareFile (hv : v ≠ shareCountUser) (s : Store) (md5 filename : CString) :
    Isolated v s (Request.cancelShareFile u md5 filename |>.serve s) ↔
      isolatedOk v s (.cancelShareFile u md5 filename) := by
  rw [Request.serve, Request.handler, run_cancelShareFile, isolatedOk]
  cases hcount : s.tables.userFileCount shareCountUser with
  | none =>
    have hsame : Isolated v s { s with tables := s.tables.setStatus 0 u md5 filename } :=
      isolated_of_same (.setStatus huv s.tables 0 md5 filename) rfl rfl
    simpa using hsame
  | some n =>
    have htouched := Untouched.cancel huv hv s.tables md5 filename
    cases hranked : s.redis.ranked (fileid md5 filename) with
    | false =>
      have hsame : Isolated v s { s with
          tables := (s.tables.setStatus 0 u md5 filename).cancel u md5 filename } :=
        isolated_of_same htouched rfl rfl
      simpa using hsame
    | true =>
      have hiff := isolated_iff_cache (s := s) (t := { s with
          tables := (s.tables.setStatus 0 u md5 filename).cancel u md5 filename
          redis := s.redis.unpublish (fileid md5 filename) })
        htouched rfl fun k hk => s.redis.entry_unpublish_other _ hk
      simpa [Redis.entry_unpublish_ne _ hranked] using hiff

omit huv in
theorem cache_delFile (s : Store) (enc : Encoding) (md5 filename : CString) :
    (∀ r ∈ s.tables.shareFileList, r.user = v →
      ((delFile enc u md5 filename).run store s).2.redis.entry (fileid r.md5 r.filename) =
        s.redis.entry (fileid r.md5 r.filename)) ↔
    (s.redis.presence (fileid md5 filename) enc = 1 →
      s.tables.userFileCount shareCountUser ≠ none → ¬ s.sharesMark v (fileid md5 filename)) := by
  have hredis := redis_delFile u md5 filename s enc
  rw [← and_imp]
  split_ifs at hredis with hcond
  · have hother : ∀ k, k ≠ fileid md5 filename →
        ((delFile enc u md5 filename).run store s).2.redis.entry k = s.redis.entry k := by
      intro k hk
      rw [hredis]
      exact s.redis.entry_unpublish_other _ hk
    rw [cache_iff hother, hredis]
    simp [hcond, Redis.entry_unpublish_ne _ (Redis.ranked_of_presence hcond.1)]
  · rw [hredis]
    exact iff_of_true (fun _ _ _ => rfl) fun h => absurd h hcond

theorem listing_delFile (hv : v ≠ shareCountUser) (s : Store) (enc : Encoding)
    (md5 filename : CString) :
    ((delFile enc u md5 filename).run store s).2.tables.listing v = s.tables.listing v ↔
    (s.delGoesOn enc u md5 filename →
      ∀ info, s.tables.fileInfo md5 = some info → info.count = 1 → ¬ s.hasMd5 v md5) := by
  have htouched := Untouched.delFile huv hv s enc md5 filename
  have hinfo := fileInfo_delFile u md5 filename s enc
  constructor
  · rintro heq hgoes info hsome hone ⟨r, hr, huser, rfl⟩
    -- the row of `v` is shown before, and joins with nothing after
    rw [if_pos hgoes, hsome] at hinfo
    have hafter : r ∈ ((delFile enc u r.md5 filename).run store s).2.tables.userFileList := by
      have hmem : r ∈ s.tables.userFileList.filter (·.user = v) := by simp [hr, huser]
      rw [← htouched.rows] at hmem
      exact (List.mem_filter.mp hmem).1
    have hnone : ((delFile enc u r.md5 filename).run store s).2.tables.fileInfo r.md5 = none := by
      simp [hinfo, Tables.release, hone]
    exact listing_ne htouched.rows.symm hafter huser hnone hsome heq.symm
  · intro hkept
    refine listing_congr htouched fun r hr huser => ?_
    rw [hinfo]
    split_ifs with hgoes
    · cases hsome : s.tables.fileInfo md5 with
      | none => rfl
      | some info =>
        by_cases hmd5 : r.md5 = md5
        · have hone : info.count ≠ 1 := fun h => hkept hgoes info hsome h ⟨r, hr, huser, hmd5⟩
          simp [Tables.release, hmd5, hone, hsome]
        · simp [Tables.release, hmd5]
    · rfl

theorem isolated_delFile (hv : v ≠ shareCountUser) (s : Store) (enc : Encoding)
    (md5 filename : CString) :
    Isolated v s (Request.delFile enc u md5 filename |>.serve s) ↔
      isolatedOk v s (.delFile enc u md5 filename) := by
  have htouched := Untouched.delFile huv hv s enc md5 filename
  rw [isolatedOk, ← cache_delFile s enc md5 filename, ← listing_delFile huv hv s enc md5 filename]
  constructor
  · exact fun h => ⟨h.cache, h.listing⟩
  · exact fun h => ⟨h.2, htouched.count, htouched.shares, h.1⟩

end

theorem isolated_iff {r : Request} {u v : CString} (hr : r.issuer = some u) (huv : u ≠ v)
    (hv : v ≠ shareCountUser) (s : Store) :
    Isolated v s (r.serve s) ↔ isolatedOk v s r := by
  cases r with
  | upload now user filename md5 size fileid url =>
    obtain rfl : user = u := Option.some.inj hr
    exact isolated_upload huv s now filename md5 size fileid url
  | dealMd5 now user md5 filename =>
    obtain rfl : user = u := Option.some.inj hr
    exact iff_of_true (isolated_gained huv (gained_dealMd5 now user md5 filename s)) trivial
  | saveFile now user md5 filename =>
    obtain rfl : user = u := Option.some.inj hr
    exact iff_of_true (isolated_gained huv (gained_saveFile now user md5 filename s)) trivial
  | shareFile enc now user md5 filename =>
    obtain rfl : user = u := Option.some.inj hr
    exact isolated_shareFile huv hv s enc now md5 filename
  | cancelShareFile user md5 filename =>
    obtain rfl : user = u := Option.some.inj hr
    exact isolated_cancelShareFile huv hv s md5 filename
  | delFile enc user md5 filename =>
    obtain rfl : user = u := Option.some.inj hr
    exact isolated_delFile huv hv s enc md5 filename
  | _ => cases hr

/-- `v` has uploaded a file and shares it. -/
def sharedByV : List Request :=
  [.upload (bytes "t") (bytes "v") (bytes "f") (bytes "m") 1 (bytes "id") (bytes "url"),
    .shareFile .ziplist (bytes "t") (bytes "v") (bytes "m") (bytes "f")]

/-- So has `u`, with another file. -/
def sharedByBoth : List Request :=
  sharedByV ++
    [.upload (bytes "t") (bytes "u") (bytes "g") (bytes "n") 1 (bytes "id2") (bytes "url"),
      .shareFile .ziplist (bytes "t") (bytes "u") (bytes "n") (bytes "g")]

theorem isolated_cancel_own :
    (serveAll Store.empty sharedByBoth).redis.ranked (fileid (bytes "n") (bytes "g")) = true ∧
    Isolated (bytes "v") (serveAll Store.empty sharedByBoth)
      ((Request.cancelShareFile (bytes "u") (bytes "n") (bytes "g")).serve
        (serveAll Store.empty sharedByBoth)) := by
  have hother : ¬ (serveAll Store.empty sharedByBoth).sharesMark (bytes "v")
      (fileid (bytes "n") (bytes "g")) := by decide
  exact ⟨by decide,
    (isolated_iff rfl (by decide : bytes "u" ≠ bytes "v") (by decide) _).mpr fun _ _ => hother⟩

/-- Anybody can take the file of `v` out of the public set. -/
theorem not_isolated_cancel : Runs (fun _ _ => True) Store.empty sharedByV ∧
    ¬ Isolated (bytes "v") (serveAll Store.empty sharedByV)
      ((Request.cancelShareFile (bytes "u") (bytes "m") (bytes "f")).serve
        (serveAll Store.empty sharedByV)) := by
  refine ⟨⟨Finset.notMem_empty _, trivial, trivial, trivial, trivial⟩, fun h => ?_⟩
  have hentry := h.cache ⟨bytes "v", bytes "m", bytes "t", bytes "f", 0⟩ (by decide) rfl
  exact absurd (congrArg Prod.fst hentry) (by decide)

end HfDfs
