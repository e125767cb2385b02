import HfDfs.Properties.Sharing
import HfDfs.Properties.ShareCache

/-!
# The ranking shows the share list

`get_ranking_filelist` trusts the public set when it has as many members
as the counter of shared files says. A sound cache with one member for
each row is the share list, so the counter must be right and the cache
sound; marks fit the buffer for them and downloads are not negative.
-/

namespace HfDfs

set_option autoImplicit false

open Procedures Procedures.Procedure ScoredSets Zlexcount Tallies

structure Numbered (s : Store) : Prop where
  counter_eq : s.sharing.counter = s.tables.shareFileList.length
  short : ∀ row ∈ s.tables.shareFileList, row.mark.length < valuesIdSize
  nonneg : ∀ row ∈ s.tables.shareFileList, 0 ≤ row.pv

/-! ## The counter -/

/-- Nobody works under the name of the counter; a mark that is shared fits the buffer of
the ranking; and whoever cancels or deletes a share has it. -/
def countOk : Request → Store → Prop
  | .upload _ user _ md5 _ _ _, s => s.tables.fileInfo md5 = none → user ≠ shareCountUser
  | .dealMd5 _ user md5 filename, s =>
    s.tables.fileInfo md5 ≠ none → s.tables.holds user md5 filename = false → user ≠ shareCountUser
  | .saveFile _ user md5 filename, s =>
    s.tables.fileInfo md5 ≠ none → s.tables.holds user md5 filename = false → user ≠ shareCountUser
  | .shareFile enc _ _ md5 filename, s =>
    s.redis.presence (fileid md5 filename) enc = 0 → s.tables.shared md5 filename = false →
      (fileid md5 filename).length < valuesIdSize
  | .cancelShareFile user md5 filename, s =>
    s.tables.userFileCount shareCountUser ≠ none → s.sharing.lists user md5 filename
  | .delFile enc user md5 filename, s =>
    (s.delShared enc user md5 filename → s.tables.userFileCount shareCountUser ≠ none →
      s.sharing.lists user md5 filename) ∧
    (s.delGoesOn enc user md5 filename → user ≠ shareCountUser)
  | _, _ => True

theorem Numbered.of_rows {s t : Store} (h : Numbered s)
    (hrows : t.tables.shareFileList.Sublist s.tables.shareFileList)
    (hcounter : t.sharing.counter = t.tables.shareFileList.length) : Numbered t :=
  ⟨hcounter, fun row hrow => h.short row (hrows.subset hrow),
    fun row hrow => h.nonneg row (hrows.subset hrow)⟩

theorem Numbered.of_same {s t : Store} (h : Numbered s)
    (hrows : t.tables.shareFileList = s.tables.shareFileList)
    (hcounter : t.sharing.counter = s.sharing.counter) : Numbered t := by
  refine h.of_rows (by rw [hrows]) ?_
  rw [hcounter, h.counter_eq, hrows]

theorem Numbered.nil_of_none {s : Store} (h : Numbered s)
    (hnone : s.tables.userFileCount shareCountUser = none) : s.tables.shareFileList = [] := by
  have hlength := h.counter_eq
  simp only [Store.sharing, hnone, Option.getD_none] at hlength
  rw [← List.length_eq_zero_iff]
  omega

/-- A share that is there is there once. -/
theorem Cached.countP_is {s : Store} (h : Cached s) {user md5 filename : CString}
    (hlists : s.sharing.lists user md5 filename) :
    s.tables.shareFileList.countP (ShareFile.is user md5 filename) = 1 := by
  obtain ⟨row, hrow, his⟩ := hlists
  have hmarks : s.tables.shareFileList.countP (ShareFile.is user md5 filename) ≤
      (s.tables.shareFileList.map ShareFile.mark).count row.mark := by
    rw [List.count, List.countP_map]
    refine List.countP_mono_left fun q _ hq => ?_
    simpa using (ShareFile.mark_of_is hq).trans (ShareFile.mark_of_is his).symm
  have hone := List.nodup_iff_count_le_one.mp h.unique row.mark
  have hpos : 0 < s.tables.shareFileList.countP (ShareFile.is user md5 filename) :=
    List.countP_pos_iff.mpr ⟨row, hrow, his⟩
  omega

/-- One row and one of the counter go together. -/
theorem Cached.length_filter {s : Store} (h : Cached s) {user md5 filename : CString}
    (hlists : s.sharing.lists user md5 filename) :
    ((s.tables.shareFileList.filter fun r => !r.is user md5 filename).length : Int) =
      s.tables.shareFileList.length - 1 := by
  have hleave := Sharing.length_leave s.sharing user md5 filename
  have hone : s.sharing.shares.countP (ShareFile.is user md5 filename) = 1 := h.countP_is hlists
  rw [hone] at hleave
  exact hleave

section

variable {s : Store} (h : Numbered s)
include h

theorem numbered_gain {now user md5 filename : CString} (hu : user ≠ shareCountUser) (info : FileInfo)
    (storage : Finset CString) :
    Numbered ⟨s.tables.gain now user md5 filename info, s.redis, storage⟩ := by
  refine h.of_same rfl ?_
  simp [Store.sharing, Tables.gain, raise_of_ne _ hu.symm]

theorem numbered_gained {t : Store} {now user md5 filename : CString}
    (hok : s.tables.fileInfo md5 ≠ none → s.tables.holds user md5 filename = false →
      user ≠ shareCountUser) (hgained : Gained now user md5 filename s t) : Numbered t := by
  rcases hgained with ⟨-, rfl⟩ | ⟨info, hinfo, hholds, rfl⟩
  · exact h
  · have hsome : s.tables.fileInfo md5 ≠ none := Option.ne_none_iff_exists'.mpr ⟨info, hinfo⟩
    exact numbered_gain h (hok hsome hholds) info s.storage

theorem numbered_shareFile {enc : Encoding} {now user md5 filename : CString}
    (hok : countOk (.shareFile enc now user md5 filename) s) :
    Numbered (Request.shareFile enc now user md5 filename |>.serve s) := by
  rw [Request.serve, Request.handler, run_shareFile]
  rcases eq_or_ne (s.redis.presence (fileid md5 filename) enc) 0 with h0 | h0
  · rw [if_neg (by omega), if_neg (by omega)]
    cases hshared : s.tables.shared md5 filename with
    | true => exact h.of_same rfl rfl
    | false =>
      refine ⟨?_, ?_, ?_⟩
      · have hcounter := h.counter_eq
        simp only [Store.sharing] at hcounter
        simp [Store.sharing, Tables.share, Tables.setStatus, getD_raise_self, hcounter]
      · intro row hrow
        rcases List.mem_append.mp hrow with hrow | hrow
        · exact h.short row hrow
        · rw [List.mem_singleton.mp hrow]
          exact hok h0 hshared
      · intro row hrow
        rcases List.mem_append.mp hrow with hrow | hrow
        · exact h.nonneg row hrow
        · rw [List.mem_singleton.mp hrow]
  · rcases eq_or_ne (s.redis.presence (fileid md5 filename) enc) 1 with h1 | h1
    · rw [if_pos h1]
      exact h
    · rw [if_neg h1, if_pos h0]
      exact h

theorem numbered_cancelShareFile (hcached : Cached s) {user md5 filename : CString}
    (hok : countOk (.cancelShareFile user md5 filename) s) :
    Numbered (Request.cancelShareFile user md5 filename |>.serve s) := by
  rw [Request.serve, Request.handler, run_cancelShareFile]
  cases hcount : s.tables.userFileCount shareCountUser with
  | none => exact h.of_same rfl rfl
  | some n =>
    refine h.of_rows List.filter_sublist ?_
    have hlength := hcached.length_filter (hok (by simp [hcount]))
    have hlower := getD_lower_self (t := s.tables.userFileCount) (k := shareCountUser) (by simp [hcount])
    have hcounter := h.counter_eq
    simp only [Store.sharing, hcount, Option.getD_some] at hcounter hlower
    simp only [Store.sharing, Tables.cancel, Tables.setStatus, Tables.unshare]
    rw [hlower, hlength, hcounter]

theorem numbered_delFile (hcached : Cached s) {enc : Encoding} {user md5 filename : CString}
    (hok : countOk (.delFile enc user md5 filename) s) :
    Numbered (Request.delFile enc user md5 filename |>.serve s) := by
  have hrows := shareFileList_delFile user md5 filename s enc
  have hcounter := congrArg Sharing.counter (sharing_delFile (s := s) enc user md5 filename)
  change (Request.delFile enc user md5 filename |>.serve s).tables.shareFileList = _ at hrows
  dsimp only at hcounter
  -- the count of the user is another row than the counter
  have hkeep : ∀ counts : CString → Option Int,
      (if s.delGoesOn enc user md5 filename then lower counts user else counts) shareCountUser =
        counts shareCountUser := by
    intro counts
    rcases Decidable.em (s.delGoesOn enc user md5 filename) with hgoes | hgoes
    · rw [if_pos hgoes, lower_of_ne _ (hok.2 hgoes).symm]
    · rw [if_neg hgoes]
  rw [hkeep] at hcounter
  rcases Decidable.em (s.delShared enc user md5 filename) with hshared | hshared
  · rw [if_pos hshared] at hrows hcounter
    rw [lowerCounter_self] at hcounter
    refine h.of_rows (by rw [hrows]; exact List.filter_sublist) ?_
    rw [hcounter, hrows]
    cases hcount : s.tables.userFileCount shareCountUser with
    | none => simp [h.nil_of_none hcount]
    | some n =>
      have hbefore := h.counter_eq
      simp only [Store.sharing, hcount, Option.getD_some] at hbefore
      rw [hcached.length_filter (hok.1 hshared (by simp [hcount])), ← hbefore]
      rfl
  · rw [if_neg hshared] at hrows hcounter
    exact h.of_same hrows hcounter

theorem numbered_pvShareFile (enc : Encoding) (md5 filename : CString) :
    Numbered (Request.pvShareFile enc md5 filename |>.serve s) := by
  rw [Request.serve, Request.handler, run_pvShareFile]
  cases hfirst : s.tables.shareFileList.find? (·.isFile md5 filename) with
  | none => exact h
  | some row =>
    have hpv : 0 ≤ row.pv := h.nonneg row (List.mem_of_find?_eq_some hfirst)
    refine ⟨?_, ?_, ?_⟩
    · have hcounter := h.counter_eq
      simp only [Store.sharing] at hcounter
      simp [Store.sharing, Tables.setSharePv, hcounter]
    · intro q hq
      obtain ⟨p, hp, rfl⟩ := List.mem_map.mp hq
      rw [mark_setPv]
      exact h.short p hp
    · intro q hq
      obtain ⟨p, hp, rfl⟩ := List.mem_map.mp hq
      split
      · exact Int.le_add_one hpv
      · exact h.nonneg p hp

theorem numbered_serve (hcached : Cached s) {r : Request} (hok : countOk r s)
    (hranking : ∀ start count, r ≠ .getRankingFilelist start count) : Numbered (r.serve s) := by
  cases r with
  | upload now user filename md5 size fileid url =>
    rw [Request.serve, Request.handler, run_upload, run_storeFileinfoToMysql]
    split
    · exact h.of_same rfl rfl
    · rename_i hinfo
      exact numbered_gain h (hok hinfo) _ _
  | dealMd5 now user md5 filename =>
    exact numbered_gained h hok (gained_dealMd5 now user md5 filename s)
  | saveFile now user md5 filename =>
    exact numbered_gained h hok (gained_saveFile now user md5 filename s)
  | shareFile enc now user md5 filename => exact numbered_shareFile h hok
  | cancelShareFile user md5 filename => exact numbered_cancelShareFile h hcached hok
  | delFile enc user md5 filename => exact numbered_delFile h hcached hok
  | pvFile user md5 filename =>
    rw [Request.serve, Request.handler, run_pvFile]
    split
    · exact h
    · exact h.of_same rfl rfl
  | pvShareFile enc md5 filename => exact numbered_pvShareFile h enc md5 filename
  | getRankingFilelist start count => exact absurd rfl (hranking start count)
  | userRegister now user nickName pwd tel email =>
    rw [Request.serve, Request.handler, run_userRegister]
    split
    · exact h
    split
    · exact h
    · exact h.of_same rfl rfl
  | login foreign user pwd token =>
    simp only [Request.serve, Request.handler, run_bind, pure_eq, run_done]
    obtain hs | ⟨value, hs⟩ := run_login foreign user pwd token s
    · rw [hs]
      exact h
    · rw [hs]
      exact h.of_same rfl rfl

end

theorem Numbered.of_tables {s t : Store} (h : Numbered s) (htables : t.tables = s.tables) :
    Numbered t := by
  refine h.of_same (by rw [htables]) ?_
  rw [Store.sharing, htables]
  rfl

/-! ## Runs -/

/-- The conditions of the cache and of the counter, now and with an emptied Redis. -/
def rankingOk (plan : Nat → Bool) (r : Request) (s : Store) : Prop :=
  cacheOkAmid plan r s ∧ countOk r s ∧ ((∃ n, plan n = true) → countOk r s.flush)

theorem ranked_serveAmid {plan : Nat → Bool} {r : Request} {s : Store}
    (h : Cached s ∧ Numbered s) (hok : rankingOk plan r s) :
    Cached (r.serveAmid plan s) ∧ Numbered (r.serveAmid plan s) := by
  rcases Classical.em (∃ start count, r = .getRankingFilelist start count) with
    ⟨start, count, rfl⟩ | hranking
  · obtain ⟨htables, hcached⟩ := cachedAt_ranking h.1 plan start count
    exact ⟨hcached, h.2.of_tables htables⟩
  · have hother : ∀ start count, r ≠ .getRankingFilelist start count :=
      fun start count hr => hranking ⟨start, count, hr⟩
    obtain ⟨⟨hcache, hcacheAmid, hspared⟩, hcount, hcountAmid⟩ := hok
    have hserve : ∀ s, Cached s ∧ Numbered s → cacheOk r s ∧ countOk r s →
        Cached (r.serve s) ∧ Numbered (r.serve s) := fun s hs hok =>
      ⟨cached_serve hs.1 hok.1 hother, numbered_serve hs.2 hs.1 hok.2 hother⟩
    exact invariant_serveAmid (I := fun s => Cached s ∧ Numbered s) hserve
      (fun s hs => ⟨hs.1.flush, hs.2.of_tables rfl⟩)
      (fun s t hs htables hbare => ⟨hs.1.of_bare htables hbare, hs.2.of_tables htables⟩) h
      ⟨hcache, hcount⟩ (fun hplan => ⟨hcacheAmid hplan, hcountAmid hplan⟩) hspared hother

theorem numbered_empty : Numbered Store.empty :=
  ⟨rfl, fun _ hrow => absurd hrow List.not_mem_nil, fun _ hrow => absurd hrow List.not_mem_nil⟩

/-! ## As many members as rows -/

theorem Redis.ranked_load {r : Redis} (h : r.Typed) {rows : List ShareFile} {k : CString}
    (hk : r.ranked k = true ∨ ∃ row ∈ rows, row.mark = k) : (r.load rows).ranked k = true := by
  induction rows generalizing r with
  | nil =>
    rcases hk with hk | ⟨row, hrow, -⟩
    · exact hk
    · cases hrow
  | cons row rest ih =>
    refine ih (Redis.typed_publish h row.pv row.mark row.filename) ?_
    rw [Redis.ranked_publish h]
    rcases hk with hk | ⟨q, hq, rfl⟩
    · exact Or.inl (by simp [hk])
    · rcases List.mem_cons.mp hq with rfl | hq
      · exact Or.inl (by simp [ShareFile.mark])
      · exact Or.inr ⟨q, hq, rfl⟩

theorem Cached.members_subset {s : Store} (h : Cached s) :
    s.redis.publicSet.entries.map Entry.member ⊆ s.tables.shareFileList.map ShareFile.mark := by
  intro mark hmark
  obtain ⟨⟨x, m⟩, he, rfl⟩ := List.mem_map.mp hmark
  obtain ⟨row, hrow, hmark, -⟩ := h.sound m x ((ScoredSet.mem_entries_iff _ m x).mp he)
  exact List.mem_map.mpr ⟨row, hrow, hmark⟩

theorem Cached.card_eq {s : Store} (h : Cached s)
    (hall : ∀ row ∈ s.tables.shareFileList, s.redis.ranked row.mark = true) :
    s.redis.publicSet.card = s.tables.shareFileList.length := by
  have hmarks : s.tables.shareFileList.map ShareFile.mark ⊆
      s.redis.publicSet.entries.map Entry.member := by
    intro mark hmark
    obtain ⟨row, hrow, rfl⟩ := List.mem_map.mp hmark
    obtain ⟨x, hx⟩ := Option.isSome_iff_exists.mp (hall row hrow)
    exact ScoredSet.mem_of_score hx
  have hperm : (s.redis.publicSet.entries.map Entry.member).Perm
      (s.tables.shareFileList.map ShareFile.mark) := by
    rw [List.perm_ext_iff_of_nodup s.redis.publicSet.unique h.unique]
    exact fun mark => ⟨fun hm => h.members_subset hm, fun hm => hmarks hm⟩
  simpa [ScoredSet.card] using hperm.length_eq

/-- The store after an undisturbed ranking. -/
theorem cached_refresh {s : Store} (h : Cached s) :
    Cached { s with redis := s.redis.refresh s.tables } := by
  have hranking := (cachedAt_ranking h (fun _ => false) 0 0).2
  rw [serveAmid_of_still (fun _ => rfl), Request.serve, Request.handler, run_bind] at hranking
  simpa only [pure_eq, run_done, run_getRankingFilelist] using hranking

theorem card_refresh {s : Store} (h : Cached s) (hnumbered : Numbered s)
    (hrows : s.tables.shareFileList ≠ []) :
    (s.redis.refresh s.tables).publicSet.card = s.tables.shareFileList.length := by
  have hcounter := hnumbered.counter_eq
  obtain ⟨z, hz⟩ := Option.isSome_iff_exists.mp h.typed.zset
  cases hcount : s.tables.userFileCount shareCountUser with
  | none => exact absurd (hnumbered.nil_of_none hcount) hrows
  | some n =>
    simp only [Store.sharing, hcount, Option.getD_some] at hcounter
    rcases eq_or_ne (z.card : Int) n with hn | hn
    · have hsame : s.redis.refresh s.tables = s.redis := by simp [Redis.refresh, hcount, hz, hn]
      rw [hsame, Redis.publicSet, hz, Option.getD_some]
      omega
    · have hload : s.redis.refresh s.tables = s.redis.clear.load s.tables.shareFilesByPv := by
        simp [Redis.refresh, hcount, hz, hn]
      have hclear : s.redis.clear.Bare := bare_delHash (bare_delZset h.typed)
      refine (cached_refresh h).card_eq fun row hrow => ?_
      change (s.redis.refresh s.tables).ranked row.mark = true
      rw [hload]
      exact Redis.ranked_load hclear.typed (Or.inr ⟨row, (List.mem_insertionSort _).mpr hrow, rfl⟩)

/-! ## The page -/

/-- The rows in the order of the public set, highest score first. -/
theorem Cached.exists_rows {s : Store} (h : Cached s)
    (hcard : s.redis.publicSet.card = s.tables.shareFileList.length) :
    ∃ rows : List ShareFile, rows.Perm s.tables.shareFileList ∧
      rows.Pairwise (fun a b => b.pv ≤ a.pv) ∧
      rows.map ShareFile.mark = s.redis.publicSet.entries.reverse.map Entry.member := by
  have hrow : ∀ e ∈ s.redis.publicSet.entries, ∃ row, row ∈ s.tables.shareFileList ∧
      row.mark = e.member ∧ row.pv = e.score := by
    rintro ⟨x, m⟩ he
    obtain ⟨row, hrow, hmark, hpv, -⟩ := h.sound m x ((ScoredSet.mem_entries_iff _ m x).mp he)
    exact ⟨row, hrow, hmark, hpv⟩
  have hnonempty : Nonempty ShareFile := ⟨⟨[], [], [], [], 0⟩⟩
  choose! row hmem hmark hpv using hrow
  have hmarks : (s.redis.publicSet.entries.reverse.map row).map ShareFile.mark =
      s.redis.publicSet.entries.reverse.map Entry.member := by
    rw [List.map_map]
    exact List.map_congr_left fun e he => hmark e (List.mem_reverse.mp he)
  refine ⟨s.redis.publicSet.entries.reverse.map row, ?_, ?_, hmarks⟩
  · have hnodup : (s.redis.publicSet.entries.reverse.map row).Nodup := by
      refine List.Nodup.of_map ShareFile.mark ?_
      rw [hmarks, List.map_reverse, List.nodup_reverse]
      exact s.redis.publicSet.unique
    have hsubset : s.redis.publicSet.entries.reverse.map row ⊆ s.tables.shareFileList := by
      intro q hq
      obtain ⟨e, he, rfl⟩ := List.mem_map.mp hq
      exact hmem e (List.mem_reverse.mp he)
    refine (List.subperm_of_subset hnodup hsubset).perm_of_length_le ?_
    simp [← hcard, ScoredSet.card]
  · rw [List.pairwise_map, List.pairwise_reverse]
    refine s.redis.publicSet.sorted.imp_of_mem fun {a b} ha hb hab => ?_
    rw [hpv a ha, hpv b hb]
    rcases Entry.le_iff.mp hab with hlt | ⟨heq, -⟩
    · exact hlt.le
    · exact heq.le

theorem Cached.entry_of_ranked {s : Store} (h : Cached s) {row : ShareFile}
    (hrow : row ∈ s.tables.shareFileList) (hranked : s.redis.ranked row.mark = true) :
    s.redis.entry row.mark = (some row.pv, some row.filename) := by
  obtain ⟨x, hx⟩ := Option.isSome_iff_exists.mp hranked
  obtain ⟨q, hq, hmark, rfl, hname⟩ := h.sound row.mark x hx
  obtain rfl := h.eq_of_mark hq hrow hmark
  exact Prod.ext hx hname

theorem Redis.files_of_entries {r : Redis} {rows : List ShareFile}
    (hentry : ∀ row ∈ rows, r.entry row.mark = (some row.pv, some row.filename))
    (hpv : ∀ row ∈ rows, 0 ≤ row.pv) :
    r.files (rows.map ShareFile.mark) = some (rows.map fun row => (row.filename, row.pv)) := by
  induction rows with
  | nil => rfl
  | cons row rest ih =>
    obtain ⟨hscore, hname⟩ := Prod.ext_iff.mp (hentry row List.mem_cons_self)
    have hrest := ih (fun q hq => hentry q (List.mem_cons_of_mem _ hq))
      fun q hq => hpv q (List.mem_cons_of_mem _ hq)
    simp only [Redis.entry] at hscore hname
    -- the score is never the -1 that stands for an error
    have hne : row.pv ≠ -1 := by
      have hnonneg := hpv row List.mem_cons_self
      omega
    simp [Redis.files, hname, hscore, hrest]

/-- A page of a reversed range, for positions that are numbers of the list. -/
theorem revrange_eq (z : ScoredSet CString) {start count : Int} (hstart : 0 ≤ start)
    (hcount : 1 ≤ count) :
    Redis.revrange z start (start + count - 1) =
      ((z.entries.reverse.map Entry.member).drop start.toNat).take count.toNat := by
  have hlength : (z.entries.reverse.map Entry.member).length = z.card := by simp [ScoredSet.card]
  simp only [Redis.revrange]
  rw [if_neg (show ¬ start < 0 by omega), if_neg (show ¬ start < 0 by omega),
    if_neg (show ¬ start + count - 1 < 0 by omega)]
  rcases Int.lt_or_le start z.card with hlt | hge
  · rw [if_neg (by omega)]
    rcases Int.lt_or_le (start + count - 1) z.card with hstop | hstop
    · rw [if_neg (by omega), show start + count - 1 - start + 1 = count by omega]
    · -- both take all that is left
      rw [if_pos (by omega), List.take_of_length_le, List.take_of_length_le]
      · rw [List.length_drop, hlength]
        omega
      · rw [List.length_drop, hlength]
        omega
  · rw [if_pos (Or.inr hge), List.drop_eq_nil_of_le (by omega), List.take_nil]

theorem Redis.page_eq {r : Redis} (htyped : r.Typed) {rows : List ShareFile}
    (hmarks : rows.map ShareFile.mark = r.publicSet.entries.reverse.map Entry.member)
    (hentry : ∀ row ∈ rows, r.entry row.mark = (some row.pv, some row.filename))
    (hpv : ∀ row ∈ rows, 0 ≤ row.pv) (hshort : ∀ row ∈ rows, row.mark.length < valuesIdSize)
    {start count : Int} (hstart : 0 ≤ start) (hcount : 1 ≤ count) (hend : start + count < 2 ^ 31) :
    r.page start count =
      (0, ((rows.drop start.toNat).take count.toNat).map fun row => (row.filename, row.pv)) := by
  obtain ⟨z, hz⟩ := Option.isSome_iff_exists.mp htyped.zset
  have hset : r.publicSet = z := by rw [Redis.publicSet, hz, Option.getD_some]
  have hpage : ∀ row ∈ (rows.drop start.toNat).take count.toNat, row ∈ rows :=
    fun row hrow => List.mem_of_mem_drop (List.mem_of_mem_take hrow)
  have hvalues : zrevrangeValues z start (int32 (start + count - 1)) =
      ((rows.drop start.toNat).take count.toNat).map ShareFile.mark := by
    have hlast : int32 (start + count - 1) = start + count - 1 := int32_eq (by omega) (by omega)
    have hlength : int32 (start + count - 1 - start + 1) = count := by
      rw [int32_eq (by omega) (by omega)]
      omega
    simp only [zrevrangeValues, hlast, hlength]
    rw [if_pos (by omega), revrange_eq z hstart hcount, List.take_take, Nat.min_self, ← hset, ← hmarks,
      ← List.map_drop, ← List.map_take, List.map_map]
    refine List.map_congr_left fun row hrow => ?_
    have hfits := hshort row (hpage row hrow)
    exact List.take_of_length_le (by omega)
  rw [Redis.page, if_neg (by omega), hz]
  simp only [hvalues]
  rw [Redis.files_of_entries (fun row hrow => hentry row (hpage row hrow))
    fun row hrow => hpv row (hpage row hrow)]

/-- The ranking answers 0 with a page of the share list, ordered by downloads. -/
def Store.rankingShown (s : Store) (start count : Int) : Prop :=
  ∃ rows : List ShareFile, rows.Perm s.tables.shareFileList ∧
    rows.Pairwise (fun a b => b.pv ≤ a.pv) ∧
    ((getRankingFilelist start count).run store s).1 =
      some (0, ((rows.drop start.toNat).take count.toNat).map fun row => (row.filename, row.pv))

/-- The page that is about to be logged fits the log line. -/
def Store.rankingFits (s : Store) (start count : Int) : Prop :=
  rankingList (s.ranking start count).2 ≠ none

instance (s : Store) (start count : Int) : Decidable (s.rankingFits start count) :=
  inferInstanceAs (Decidable (_ ≠ _))

theorem Store.rankingFits.logged {s : Store} {start count : Int} (h : s.rankingFits start count) :
    loggedPage (s.ranking start count) = some (s.ranking start count) := by
  rw [loggedPage]
  split
  · obtain ⟨out, hout⟩ := Option.ne_none_iff_exists'.mp h
    rw [hout, Option.map_some]
  · rfl

theorem ranking_eq {s : Store} (h : Cached s) (hnumbered : Numbered s)
    (hrows : s.tables.shareFileList ≠ []) (start count : Int) :
    s.ranking start count = (s.redis.refresh s.tables).page start count := by
  obtain ⟨z, hz⟩ := Option.isSome_iff_exists.mp h.typed.zset
  have hsorted : s.tables.shareFilesByPv ≠ [] := by
    intro hnil
    have hlength := (List.perm_insertionSort (fun a b : ShareFile => b.pv ≤ a.pv)
      s.tables.shareFileList).length_eq
    rw [← Tables.shareFilesByPv, hnil] at hlength
    exact hrows (List.length_eq_zero_iff.mp hlength.symm)
  cases hcount : s.tables.userFileCount shareCountUser with
  | none => exact absurd (hnumbered.nil_of_none hcount) hrows
  | some n => simp [Store.ranking, hcount, hz, hsorted]

end HfDfs
