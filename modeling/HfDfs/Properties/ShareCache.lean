import HfDfs.Properties.Deletion
import HfDfs.Properties.Emptying

/-!
# The public set as a cache of the share list

Every file in the public set should be a row of `share_file_list`, scored
with the row's downloads and named in the hash. The invariant adds that no
two rows have one mark. Two handlers can break it: `share_file` repairs a
lost entry with the score 0 and without the name, and `del_file` may drop
the row and leave the entry.
-/

namespace HfDfs

set_option autoImplicit false

open Procedures Procedures.Procedure ScoredSets Zlexcount

def ShareFile.mark (row : ShareFile) : CString := fileid row.md5 row.filename

/-- Every member of the public set is a row, with the row's downloads and name. -/
def Redis.Sound (r : Redis) (shares : List ShareFile) : Prop :=
  ∀ mark x, r.publicSet.score mark = some x →
    ∃ row ∈ shares, row.mark = mark ∧ row.pv = x ∧ r.nameHash mark = some row.filename

def Store.cacheSound (s : Store) : Prop := s.redis.Sound s.tables.shareFileList

structure Cached (s : Store) : Prop where
  typed : s.redis.Typed
  sound : s.cacheSound
  unique : (s.tables.shareFileList.map ShareFile.mark).Nodup

/-! ## Soundness under a change of one mark -/

theorem ShareFile.mark_of_isFile {row : ShareFile} {md5 filename : CString}
    (h : row.isFile md5 filename = true) : row.mark = fileid md5 filename := by
  obtain ⟨rfl, rfl⟩ := ShareFile.isFile_iff.mp h
  rfl

theorem ShareFile.mark_of_is {row : ShareFile} {user md5 filename : CString}
    (h : row.is user md5 filename = true) : row.mark = fileid md5 filename := by
  obtain ⟨-, rfl, rfl⟩ := ShareFile.is_iff.mp h
  rfl

theorem Redis.Bare.sound {r : Redis} (h : r.Bare) (shares : List ShareFile) : r.Sound shares := by
  intro mark x hx
  simp [h.publicSet_eq] at hx

theorem Redis.Sound.change {r t : Redis} {shares rows : List ShareFile} (h : r.Sound shares)
    (mark : CString) (hother : ∀ k, k ≠ mark → t.entry k = r.entry k)
    (hrows : ∀ row ∈ shares, row.mark ≠ mark → row ∈ rows)
    (hmark : t.publicSet.score mark = none ∨ ∃ row ∈ rows, row.mark = mark ∧
      t.entry mark = (some row.pv, some row.filename)) : t.Sound rows := by
  intro k x hx
  rcases eq_or_ne k mark with rfl | hk
  · rcases hmark with hnone | ⟨row, hrow, hmark, hentry⟩
    · rw [hnone] at hx
      cases hx
    · obtain ⟨hscore, hname⟩ := Prod.ext_iff.mp hentry
      exact ⟨row, hrow, hmark, Option.some.inj (hscore.symm.trans hx), hname⟩
  · obtain ⟨hscore, hname⟩ := Prod.ext_iff.mp (hother k hk)
    obtain ⟨row, hrow, rfl, hpv, hfilename⟩ := h k x (hscore.symm.trans hx)
    exact ⟨row, hrows row hrow hk, rfl, hpv, hname.trans hfilename⟩

theorem Redis.Sound.publish {r : Redis} {shares rows : List ShareFile} (h : r.Sound shares)
    (htyped : r.Typed) {row : ShareFile} (hrow : row ∈ rows)
    (hrows : ∀ q ∈ shares, q.mark ≠ row.mark → q ∈ rows) :
    (r.publish row.pv row.mark row.filename).Sound rows := by
  refine h.change row.mark (fun k hk => entry_publish_other r _ _ _ hk) hrows
    (Or.inr ⟨row, hrow, rfl, ?_⟩)
  simp [Redis.entry, Redis.publicSet_publish _ _ _ htyped.zset, Redis.nameHash_publish _ _ _ htyped.hash]

theorem Redis.Sound.unpublish {r : Redis} {shares rows : List ShareFile} (h : r.Sound shares)
    (mark : CString) (hrows : ∀ q ∈ shares, q.mark ≠ mark → q ∈ rows) :
    (r.unpublish mark).Sound rows :=
  h.change mark (fun k hk => entry_unpublish_other r mark hk) hrows
    (Or.inl (by simp [Redis.publicSet_unpublish]))

/-- A mark that is not in the public set may lose its row. -/
theorem Redis.Sound.forget {r : Redis} {shares rows : List ShareFile} (h : r.Sound shares)
    {mark : CString} (hmark : r.ranked mark = false) (hrows : ∀ q ∈ shares, q.mark ≠ mark → q ∈ rows) :
    r.Sound rows :=
  h.change mark (fun _ _ => rfl) hrows (Or.inl (by simpa [Redis.ranked] using hmark))

theorem Cached.flush {s : Store} (h : Cached s) : Cached s.flush :=
  ⟨Redis.typed_empty, Redis.bare_empty.sound _, h.unique⟩

theorem Cached.of_bare {s t : Store} (h : Cached s) (htables : t.tables = s.tables)
    (hredis : t.redis.Bare) : Cached t := by
  refine ⟨hredis.typed, hredis.sound _, ?_⟩
  rw [htables]
  exact h.unique

/-- Two rows of one mark are one. -/
theorem Cached.eq_of_mark {s : Store} (h : Cached s) {row q : ShareFile}
    (hrow : row ∈ s.tables.shareFileList) (hq : q ∈ s.tables.shareFileList)
    (hmark : row.mark = q.mark) : row = q :=
  List.inj_on_of_nodup_map h.unique hrow hq hmark

/-! ## The requests, undisturbed -/

/-- The mark of a file that is shared is not yet another file's; a repair finds a row
without downloads and the name still in the hash; the test of a download answers 0 or 1;
and a deletion that drops the row of a ranked file also removes the entry. -/
def cacheOk : Request → Store → Prop
  | .shareFile enc _ _ md5 filename, s =>
    (∀ row ∈ s.tables.shareFileList, row.mark = fileid md5 filename →
      row.isFile md5 filename = true) ∧
    (s.redis.presence (fileid md5 filename) enc = 0 →
      ∀ row ∈ s.tables.shareFileList, row.isFile md5 filename = true →
        row.pv = 0 ∧ s.redis.nameHash (fileid md5 filename) = some filename)
  | .pvShareFile enc md5 filename, s =>
    s.tables.shared md5 filename = true →
      s.redis.presence (fileid md5 filename) enc = 0 ∨ s.redis.presence (fileid md5 filename) enc = 1
  | .delFile enc user md5 filename, s =>
    s.delShared enc user md5 filename →
      (∃ row ∈ s.tables.shareFileList, row.is user md5 filename = true) →
      s.redis.ranked (fileid md5 filename) = true →
        s.redis.presence (fileid md5 filename) enc = 1 ∧
          s.tables.userFileCount shareCountUser ≠ none
  | .login _ user _ _, _ => user ≠ FILE_PUBLIC_ZSET ∧ user ≠ FILE_NAME_HASH
  | _, _ => True

section

variable {s : Store} (h : Cached s)
include h

theorem cached_gain (now user md5 filename : CString) (info : FileInfo) (storage : Finset CString) :
    Cached ⟨s.tables.gain now user md5 filename info, s.redis, storage⟩ :=
  ⟨h.typed, h.sound, h.unique⟩

theorem cached_gained {t : Store} {now user md5 filename : CString}
    (hgained : Gained now user md5 filename s t) : Cached t := by
  rcases hgained with ⟨-, rfl⟩ | ⟨info, -, -, rfl⟩
  · exact h
  · exact cached_gain h now user md5 filename info s.storage

theorem cached_shareFile {enc : Encoding} {now user md5 filename : CString}
    (hok : cacheOk (.shareFile enc now user md5 filename) s) :
    Cached (Request.shareFile enc now user md5 filename |>.serve s) := by
  obtain ⟨hmarks, hrepair⟩ := hok
  rw [Request.serve, Request.handler, run_shareFile]
  rcases eq_or_ne (s.redis.presence (fileid md5 filename) enc) 0 with h0 | h0
  · rw [if_neg (by omega), if_neg (by omega)]
    cases hshared : s.tables.shared md5 filename with
    | true =>
      obtain ⟨row, hrow, hfile⟩ := List.any_eq_true.mp hshared
      obtain ⟨hpv, hname⟩ := hrepair h0 row hrow hfile
      obtain ⟨-, hfilename⟩ := ShareFile.isFile_iff.mp hfile
      rw [if_pos rfl]
      refine ⟨Redis.typed_rank h.typed 0 _, ?_, h.unique⟩
      refine h.sound.change (fileid md5 filename) (fun k hk => Redis.entry_rank_other _ _ _ hk)
        (fun q hq _ => hq) (Or.inr ⟨row, hrow, ShareFile.mark_of_isFile hfile, ?_⟩)
      simp [Redis.entry, Redis.publicSet_rank _ _ h.typed.zset, hname, hpv, hfilename]
    | false =>
      rw [if_neg Bool.false_ne_true]
      have hnew : ∀ row ∈ s.tables.shareFileList, row.mark ≠ fileid md5 filename := by
        intro row hrow hmark
        have hany := List.any_eq_true.mpr ⟨row, hrow, hmarks row hrow hmark⟩
        exact absurd (hshared.symm.trans hany) Bool.false_ne_true
      have hrow : (⟨user, md5, now, filename, 0⟩ : ShareFile) ∈
          s.tables.shareFileList ++ [⟨user, md5, now, filename, 0⟩] :=
        List.mem_append_right _ (List.mem_singleton_self _)
      have hsound := h.sound.publish h.typed hrow fun q hq _ => List.mem_append_left _ hq
      refine ⟨Redis.typed_publish h.typed 0 _ _, hsound, ?_⟩
      · simp only [Tables.share, List.map_append, List.map_cons, List.map_nil]
        refine List.nodup_append.mpr ⟨h.unique, List.nodup_singleton _, ?_⟩
        intro mark hmark k hk
        obtain ⟨row, hrow, rfl⟩ := List.mem_map.mp hmark
        rw [List.mem_singleton.mp hk]
        exact hnew row hrow
  · rcases eq_or_ne (s.redis.presence (fileid md5 filename) enc) 1 with h1 | h1
    · rw [if_pos h1]
      exact h
    · rw [if_neg h1, if_pos h0]
      exact h

omit h in
/-- Rows of other marks outlast a removal. -/
theorem mem_filter_of_mark {shares : List ShareFile} {user md5 filename : CString} {q : ShareFile}
    (hq : q ∈ shares) (hmark : q.mark ≠ fileid md5 filename) :
    q ∈ shares.filter fun r => !r.is user md5 filename := by
  refine List.mem_filter.mpr ⟨hq, ?_⟩
  cases his : q.is user md5 filename with
  | false => rfl
  | true => exact absurd (ShareFile.mark_of_is his) hmark

theorem unique_filter (keep : ShareFile → Bool) :
    ((s.tables.shareFileList.filter keep).map ShareFile.mark).Nodup :=
  h.unique.sublist (List.filter_sublist.map _)

theorem cached_cancelShareFile (user md5 filename : CString) :
    Cached (Request.cancelShareFile user md5 filename |>.serve s) := by
  rw [Request.serve, Request.handler, run_cancelShareFile]
  cases s.tables.userFileCount shareCountUser with
  | none => exact ⟨h.typed, h.sound, h.unique⟩
  | some n =>
    cases hranked : s.redis.ranked (fileid md5 filename) with
    | false =>
      exact ⟨h.typed, h.sound.forget hranked fun q hq => mem_filter_of_mark hq, unique_filter h _⟩
    | true =>
      exact ⟨Redis.typed_unpublish h.typed _,
        h.sound.unpublish _ fun q hq => mem_filter_of_mark hq, unique_filter h _⟩

theorem cached_delFile {enc : Encoding} {user md5 filename : CString}
    (hok : cacheOk (.delFile enc user md5 filename) s) :
    Cached (Request.delFile enc user md5 filename |>.serve s) := by
  have hredis := redis_delFile user md5 filename s enc
  have hshares := shareFileList_delFile user md5 filename s enc
  rw [Request.serve, Request.handler]
  rcases Decidable.em (s.delShared enc user md5 filename) with hshared | hshared
  · rw [if_pos hshared] at hshares
    rcases Decidable.em (s.redis.presence (fileid md5 filename) enc = 1 ∧
      s.tables.userFileCount shareCountUser ≠ none) with hremoved | hremoved
    · rw [if_pos hremoved] at hredis
      refine ⟨?_, ?_, ?_⟩
      · rw [hredis]
        exact Redis.typed_unpublish h.typed _
      · rw [Store.cacheSound, hredis, hshares]
        exact h.sound.unpublish _ fun q hq => mem_filter_of_mark hq
      · rw [hshares]
        exact unique_filter h _
    · rw [if_neg hremoved] at hredis
      refine ⟨?_, ?_, ?_⟩
      · rw [hredis]
        exact h.typed
      · rw [Store.cacheSound, hredis, hshares]
        cases hranked : s.redis.ranked (fileid md5 filename) with
        | false => exact h.sound.forget hranked fun q hq => mem_filter_of_mark hq
        | true =>
          -- the entry stays, so the row must not have been there
          have hnone : ∀ row ∈ s.tables.shareFileList, (!row.is user md5 filename) = true := by
            intro row hrow
            cases his : row.is user md5 filename with
            | false => rfl
            | true => exact absurd (hok hshared ⟨row, hrow, his⟩ hranked) hremoved
          rw [List.filter_eq_self.mpr hnone]
          exact h.sound
      · rw [hshares]
        exact unique_filter h _
  · rw [if_neg hshared] at hshares
    have hsame : ¬ (s.redis.presence (fileid md5 filename) enc = 1 ∧
        s.tables.userFileCount shareCountUser ≠ none) := fun hremoved => hshared (Or.inl hremoved.1)
    rw [if_neg hsame] at hredis
    refine ⟨?_, ?_, ?_⟩
    · rw [hredis]
      exact h.typed
    · rw [Store.cacheSound, hredis, hshares]
      exact h.sound
    · rw [hshares]
      exact h.unique

omit h in
theorem mark_setPv (pv : Int) (md5 filename : CString) (r : ShareFile) :
    (if r.isFile md5 filename then { r with pv := pv } else r : ShareFile).mark = r.mark := by
  split <;> rfl

omit h in
/-- The rows after a download: the file's own with one more, the others as they were. -/
theorem mem_setSharePv {t : Tables} {md5 filename : CString} {q : ShareFile}
    (hq : q ∈ t.shareFileList) (hmark : q.mark ≠ fileid md5 filename) (pv : Int) :
    q ∈ (t.setSharePv pv md5 filename).shareFileList := by
  refine List.mem_map.mpr ⟨q, hq, if_neg fun hfile => ?_⟩
  exact hmark (ShareFile.mark_of_isFile hfile)

theorem cached_pvShareFile {enc : Encoding} {md5 filename : CString}
    (hok : cacheOk (.pvShareFile enc md5 filename) s) :
    Cached (Request.pvShareFile enc md5 filename |>.serve s) := by
  rw [Request.serve, Request.handler, run_pvShareFile]
  cases hfirst : s.tables.shareFileList.find? (·.isFile md5 filename) with
  | none => exact h
  | some row =>
    have hrow : row ∈ s.tables.shareFileList := List.mem_of_find?_eq_some hfirst
    have hfile : row.isFile md5 filename = true := List.find?_some hfirst
    have hpresence := hok (List.any_eq_true.mpr ⟨row, hrow, hfile⟩)
    obtain ⟨rfl, rfl⟩ := ShareFile.isFile_iff.mp hfile
    have hunique : ((s.tables.setSharePv (row.pv + 1) row.md5 row.filename).shareFileList.map
        ShareFile.mark).Nodup := by
      have hmarks : (s.tables.setSharePv (row.pv + 1) row.md5 row.filename).shareFileList.map
          ShareFile.mark = s.tables.shareFileList.map ShareFile.mark := by
        simp [Tables.setSharePv, mark_setPv]
      rw [hmarks]
      exact h.unique
    -- the row as the UPDATE leaves it
    have hrow' : ({ row with pv := row.pv + 1 } : ShareFile) ∈
        (s.tables.setSharePv (row.pv + 1) row.md5 row.filename).shareFileList :=
      List.mem_map.mpr ⟨row, hrow, if_pos hfile⟩
    have hrows : ∀ q ∈ s.tables.shareFileList, q.mark ≠ row.mark →
        q ∈ (s.tables.setSharePv (row.pv + 1) row.md5 row.filename).shareFileList :=
      fun q hq hne => mem_setSharePv hq hne _
    dsimp only
    rcases hpresence with h0 | h1
    · rw [if_neg (by omega), if_pos h0]
      have hsound := h.sound.publish h.typed hrow' hrows
      exact ⟨Redis.typed_publish h.typed _ _ _, hsound, hunique⟩
    · rw [if_pos h1]
      refine ⟨Redis.typed_download h.typed _, ?_, hunique⟩
      refine h.sound.change row.mark (fun k hk => Redis.entry_download_other _ _ hk) hrows
        (Or.inr ⟨_, hrow', rfl, ?_⟩)
      -- the entry that is there is the row's
      obtain ⟨x, hx⟩ := Option.isSome_iff_exists.mp (Redis.ranked_of_presence h1)
      obtain ⟨q, hq, hmark, hpv, hname⟩ := h.sound _ x hx
      obtain rfl := h.eq_of_mark hq hrow hmark
      have hscore : s.redis.publicSet.score q.mark = some q.pv := hx.trans (congrArg some hpv.symm)
      have hname' : s.redis.nameHash q.mark = some q.filename := hname
      simp only [Redis.entry, Redis.nameHash_download, hname']
      have hset : (s.redis.download q.mark).publicSet = _ := Redis.publicSet_download _ h.typed.zset
      rw [show fileid q.md5 q.filename = q.mark from rfl, hset, ScoredSet.score_put, if_pos rfl, hscore,
        Option.getD_some]

theorem cached_login {foreign : ResultOne} {user pwd : CString} {token : Option CString}
    (hok : cacheOk (.login foreign user pwd token) s) :
    Cached (Request.login foreign user pwd token |>.serve s) := by
  simp only [Request.serve, Request.handler, run_bind, pure_eq, run_done]
  obtain hs | ⟨value, hs⟩ := run_login foreign user pwd token s
  · rw [hs]
    exact h
  · rw [hs]
    have hz := Function.update_of_ne hok.1.symm (some (RedisValue.string value)) s.redis
    have hf := Function.update_of_ne hok.2.symm (some (RedisValue.string value)) s.redis
    refine ⟨h.typed.congr hz hf, ?_, h.unique⟩
    rw [Store.cacheSound, Redis.Sound, Redis.publicSet_congr hz, Redis.nameHash_congr hf]
    exact h.sound

/-- Every request but the ranking, which is treated with its interruptions below. -/
theorem cached_serve {r : Request} (hok : cacheOk r s)
    (hranking : ∀ start count, r ≠ .getRankingFilelist start count) : Cached (r.serve s) := by
  cases r with
  | upload now user filename md5 size fileid url =>
    rw [Request.serve, Request.handler, run_upload, run_storeFileinfoToMysql]
    split
    · exact ⟨h.typed, h.sound, h.unique⟩
    · exact cached_gain h now user md5 filename _ _
  | dealMd5 now user md5 filename =>
    exact cached_gained h (gained_dealMd5 now user md5 filename s)
  | saveFile now user md5 filename =>
    exact cached_gained h (gained_saveFile now user md5 filename s)
  | shareFile enc now user md5 filename => exact cached_shareFile h hok
  | cancelShareFile user md5 filename => exact cached_cancelShareFile h user md5 filename
  | delFile enc user md5 filename => exact cached_delFile h hok
  | pvFile user md5 filename =>
    rw [Request.serve, Request.handler, run_pvFile]
    split
    · exact h
    · exact ⟨h.typed, h.sound, h.unique⟩
  | pvShareFile enc md5 filename => exact cached_pvShareFile h hok
  | getRankingFilelist start count => exact absurd rfl (hranking start count)
  | userRegister now user nickName pwd tel email =>
    rw [Request.serve, Request.handler, run_userRegister]
    split
    · exact h
    split
    · exact h
    · exact ⟨h.typed, h.sound, h.unique⟩
  | login foreign user pwd token => exact cached_login h hok

end

/-! ## The ranking, interrupted anywhere -/

def Command.reads (c : Command) : Prop := ∀ s, (store.exec c s).2 = s

theorem reads_redisCommand {command : RedisCommand} (h : ∀ r : Redis, (r.exec command).2 = r) :
    Command.reads (.redisCommand command) := by
  intro s
  rw [store_exec, Store.exec, h]

section Reads

variable (key member : CString)

theorem ropZsetZcard_reads : (ropZsetZcard key).Issues Command.reads := by
  refine ⟨reads_redisCommand fun r => ?_, fun reply => ?_⟩
  · rw [Redis.exec]
    split <;> rfl
  · cases reply <;> exact trivial

theorem ropHashGet_reads : (ropHashGet key member).Issues Command.reads := by
  refine ⟨reads_redisCommand fun r => ?_, fun reply => ?_⟩
  · rw [Redis.exec]
    split
    · rfl
    · split <;> rfl
  · cases reply <;> exact trivial

theorem ropZsetGetScore_reads : (ropZsetGetScore key member).Issues Command.reads := by
  refine ⟨reads_redisCommand fun r => ?_, fun reply => ?_⟩
  · rw [Redis.exec]
    split
    · rfl
    · split <;> rfl
  · cases reply <;> exact trivial

theorem ropZsetZrevrange_reads (fromPos endPos : Int) :
    (ropZsetZrevrange key fromPos endPos).Issues Command.reads := by
  refine ⟨reads_redisCommand fun r => ?_, fun reply => ?_⟩
  · rw [Redis.exec]
    split <;> rfl
  · cases reply <;> exact trivial

end Reads

theorem readRanking_reads (values : List CString) : (readRanking values).Issues Command.reads := by
  induction values with
  | nil => exact trivial
  | cons value rest ih =>
    refine (ropHashGet_reads _ _).bind fun name => ?_
    cases name with
    | none => exact trivial
    | some filename =>
      refine (ropZsetGetScore_reads _ _).bind fun score => ?_
      split
      · exact trivial
      · refine ih.bind fun files => ?_
        cases files <;> exact trivial

theorem pageRanking_reads (start count : Int) : (pageRanking start count).Issues Command.reads := by
  rw [pageRanking]
  split
  · exact trivial
  · refine (ropZsetZrevrange_reads _ _ _).bind fun values => ?_
    cases values with
    | none => exact trivial
    | some values =>
      refine (readRanking_reads values).bind fun files => ?_
      cases files <;> exact trivial

/-- The cache is good for these tables. -/
def CachedAt (t : Tables) (s : Store) : Prop := s.tables = t ∧ Cached s

theorem CachedAt.emptied {t : Tables} {s y : Store} (h : CachedAt t s) (hy : s.Emptied y) :
    CachedAt t y := by
  rcases hy with rfl | rfl
  · exact h
  · exact ⟨h.1, h.2.flush⟩

theorem withstands_reads {α : Type} {p : Handler α} (hp : p.Issues Command.reads) {t : Tables}
    {s : Store} (h : CachedAt t s) :
    p.Withstands store Store.Emptied (fun _ y => CachedAt t y) s := by
  refine hp.withstands (I := CachedAt t) (fun _ _ hs => hs.emptied) (fun c hc y hy => ?_) h
  rw [hc y]
  exact hy

theorem withstands_loadRanking {t : Tables} {rows : List ShareFile}
    (hrows : ∀ row ∈ rows, row ∈ t.shareFileList) {s : Store} (h : CachedAt t s) :
    (loadRanking rows).Withstands store Store.Emptied (fun _ y => CachedAt t y) s := by
  induction rows generalizing s with
  | nil => exact h
  | cons row rest ih =>
    obtain ⟨rfl, hcached⟩ := h
    have hrow : row ∈ s.tables.shareFileList := hrows row List.mem_cons_self
    refine withstands_publish (Or.inl rfl) fun redis hredis => ?_
    refine ih (fun q hq => hrows q (List.mem_cons_of_mem _ hq)) ⟨rfl, ?_⟩
    rcases hredis with rfl | rfl | rfl
    · have hsound := hcached.sound.publish hcached.typed hrow fun q hq _ => hq
      exact ⟨Redis.typed_publish hcached.typed _ _ _, hsound, hcached.unique⟩
    · have hsound := (Redis.bare_empty.sound s.tables.shareFileList).publish Redis.typed_empty hrow
        fun q hq _ => hq
      exact ⟨Redis.typed_publish Redis.typed_empty _ _ _, hsound, hcached.unique⟩
    · exact hcached.of_bare rfl (Redis.bare_setName Redis.bare_empty _ _)

theorem once_ropDelKey (key : CString) : Once (ropDelKey key) := by
  intro reply
  cases reply <;> exact ⟨_, rfl⟩

theorem run_ropDelKey (key : CString) (s : Store) :
    ((ropDelKey key).run store s).2 = { s with redis := Function.update s.redis key none } := rfl

theorem bare_delZset {r : Redis} (h : r.Typed) :
    Redis.Bare (Function.update r FILE_PUBLIC_ZSET none) := by
  have hz : Redis.zsetAt (Function.update r FILE_PUBLIC_ZSET none) FILE_PUBLIC_ZSET = some .empty := by
    simp [Redis.zsetAt]
  refine ⟨⟨by rw [hz]; rfl, ?_⟩, by rw [Redis.publicSet, hz]; rfl⟩
  rw [Redis.hashAt_congr (Function.update_of_ne zset_ne_hash.symm none r)]
  exact h.hash

theorem bare_delHash {r : Redis} (h : r.Bare) :
    Redis.Bare (Function.update r FILE_NAME_HASH none) := by
  have hz := Function.update_of_ne zset_ne_hash none r
  refine ⟨⟨?_, ?_⟩, ?_⟩
  · rw [Redis.zsetAt_congr hz]
    exact h.typed.zset
  · simp [Redis.hashAt]
  · rw [Redis.publicSet_congr hz]
    exact h.publicSet_eq

theorem withstands_reloadRanking {t : Tables} {s : Store} (h : CachedAt t s) :
    reloadRanking.Withstands store Store.Emptied (fun _ y => CachedAt t y) s := by
  refine (once_ropDelKey _).first fun x hx => ?_
  have hx' := h.emptied hx
  rw [run_ropDelKey]
  refine (once_ropDelKey _).first fun y hy => ?_
  have hbare : y.redis.Bare := by
    rcases hy with rfl | rfl
    · exact bare_delZset hx'.2.typed
    · exact Redis.bare_empty
  rw [run_ropDelKey]
  have hcleared : CachedAt t { y with redis := Function.update y.redis FILE_NAME_HASH none } :=
    ⟨hy.tables.trans hx'.1, hx'.2.of_bare hy.tables (bare_delHash hbare)⟩
  intro z hz
  have hz' := hcleared.emptied hz
  have hrows : ∀ row ∈ z.tables.shareFilesByPv, row ∈ t.shareFileList := by
    intro row hrow
    rw [hz'.1] at hrow
    exact (List.mem_insertionSort _).mp hrow
  simp only [store_exec, Store.exec]
  cases hlist : z.tables.shareFilesByPv with
  | nil => exact hz'
  | cons row rest =>
    rw [hlist] at hrows
    exact (withstands_loadRanking hrows hz').bind fun _ _ hload => hload

theorem withstands_getRankingFilelist {t : Tables} {s : Store} (start count : Int)
    (h : CachedAt t s) :
    (getRankingFilelist start count).Withstands store Store.Emptied (fun _ y => CachedAt t y) s := by
  refine withstands_begin fun x hx u hu => ?_
  have hu' := h.emptied (hx.trans hu)
  generalize (store.exec (.processResultOne (.userFileCountQuoted shareCountUser) true) u).1 = reply
  cases reply with
  | row tmp =>
    refine (withstands_reads (ropZsetZcard_reads _) hu').bind fun redisNum y hy => ?_
    split
    · exact hy
    split
    · refine (withstands_reloadRanking hy).bind fun loaded z hz => ?_
      cases loaded with
      | false => exact hz
      | true => exact withstands_reads (pageRanking_reads start count) hz
    · exact withstands_reads (pageRanking_reads start count) hy
  | _ => exact hu'

theorem cachedAt_ranking {s : Store} (h : Cached s) (plan : Nat → Bool) (start count : Int) :
    CachedAt s.tables (Request.getRankingFilelist start count |>.serveAmid plan s) := by
  have hranking : (Request.getRankingFilelist start count).handler.Withstands store Store.Emptied
      (fun _ y => CachedAt s.tables y) s :=
    (withstands_getRankingFilelist start count ⟨rfl, h⟩).bind fun _ _ hy => hy
  exact hranking.runAmid (emptied_emptying plan) 0

/-! ## Runs -/

/-- The condition, with and without what an emptied Redis would answer. -/
def cacheOkAmid (plan : Nat → Bool) (r : Request) (s : Store) : Prop :=
  cacheOk r s ∧ ((∃ n, plan n = true) → cacheOk r s.flush) ∧ r.spared plan s

theorem cached_serveAmid {plan : Nat → Bool} {r : Request} {s : Store} (h : Cached s)
    (hok : cacheOkAmid plan r s) : Cached (r.serveAmid plan s) := by
  rcases Classical.em (∃ start count, r = .getRankingFilelist start count) with
    ⟨start, count, rfl⟩ | hranking
  · exact (cachedAt_ranking h plan start count).2
  · have hother : ∀ start count, r ≠ .getRankingFilelist start count :=
      fun start count hr => hranking ⟨start, count, hr⟩
    obtain ⟨hnow, hemptied, hspared⟩ := hok
    exact invariant_serveAmid (I := Cached) (fun _ hs hok => cached_serve hs hok hother) (fun _ hs => hs.flush)
      (fun _ _ hs => hs.of_bare) h hnow hemptied hspared hother

theorem cached_empty : Cached Store.empty :=
  ⟨Redis.typed_empty, Redis.bare_empty.sound _, List.nodup_nil⟩

/-- A share, a download, the loss of Redis, and an attempt to share the file again. -/
def repairEvents : List Event :=
  [.serve (fun _ => false) (.shareFile .ziplist (bytes "t") (bytes "u") (bytes "m") (bytes "f")),
    .serve (fun _ => false) (.pvShareFile .ziplist (bytes "m") (bytes "f")),
    .flush,
    .serve (fun _ => false) (.shareFile .ziplist (bytes "t") (bytes "v") (bytes "m") (bytes "f"))]

end HfDfs
