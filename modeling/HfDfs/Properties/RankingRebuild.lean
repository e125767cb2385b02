import HfDfs.Properties.Ranking

/-!
# Rebuilding the ranking

When the counter of shared files differs from the number of members,
`get_ranking_filelist` deletes both keys and loads the share list again.
Whatever Redis held before, it then mirrors the share list, and pages are
cut from the rows ordered by downloads and mark. A page is shown when its
text fits the line it is logged in.
-/

namespace HfDfs

set_option autoImplicit false

open Procedures Procedures.Procedure ScoredSets

def ShareFile.entry (row : ShareFile) : Entry CString := ⟨row.pv, row.mark⟩

/-- The shared files by descending downloads and mark. -/
def Tables.ranking (t : Tables) : List ShareFile :=
  t.shareFileList.insertionSort fun a b => b.entry ≤ a.entry

/-- The files at the positions `start` to `start + count - 1`. -/
def Tables.rankingPage (t : Tables) (start count : Int) : List (CString × Int) :=
  ((t.ranking.drop start.toNat).take count.toNat).map fun row => (row.filename, row.pv)

/-- The text of the page fits the log line. -/
def Tables.pageFits (t : Tables) (start count : Int) : Prop :=
  rankingList (t.rankingPage start count) ≠ none

instance (t : Tables) (start count : Int) : Decidable (t.pageFits start count) :=
  inferInstanceAs (Decidable (_ ≠ _))

/-- The set maps each mark to its downloads and the hash each mark to its file name. -/
structure Redis.Mirrors (r : Redis) (rows : List ShareFile) : Prop where
  zset : ∃ z, r.zsetAt FILE_PUBLIC_ZSET = some z ∧
    ∀ mark x, z.score mark = some x ↔ ∃ row ∈ rows, row.mark = mark ∧ row.pv = x
  hash : ∃ names, r.hashAt FILE_NAME_HASH = some names ∧
    ∀ mark name, names mark = some name ↔ ∃ row ∈ rows, row.mark = mark ∧ row.filename = name

/-- The share list can be shown: marks differ and fit the buffers, and no download count is
negative. -/
structure Showable (rows : List ShareFile) : Prop where
  nonempty : rows ≠ []
  nonneg : ∀ row ∈ rows, 0 ≤ row.pv
  distinct : (rows.map ShareFile.mark).Nodup
  short : ∀ row ∈ rows, row.mark.length < valuesIdSize

/-- The stored counter differs from the number of members. -/
def Store.miscounted (s : Store) : Prop :=
  ∃ n z, s.tables.userFileCount shareCountUser = some n ∧
    s.redis.zsetAt FILE_PUBLIC_ZSET = some z ∧ (z.card : Int) ≠ n

/-! ## Loading -/

section Load

variable {r : Redis} {rows : List ShareFile}

theorem typed_clear (r : Redis) : r.clear.Typed := by
  have hz : r.clear FILE_PUBLIC_ZSET = none := by
    rw [Redis.clear, Function.update_of_ne zset_ne_hash, Function.update_self]
  have hf : r.clear FILE_NAME_HASH = none := by rw [Redis.clear, Function.update_self]
  exact ⟨by rw [Redis.zsetAt, hz]; rfl, by rw [Redis.hashAt, hf]; rfl⟩

theorem entry_clear (r : Redis) (mark : CString) : r.clear.entry mark = (none, none) := by
  have hz : r.clear FILE_PUBLIC_ZSET = none := by
    rw [Redis.clear, Function.update_of_ne zset_ne_hash, Function.update_self]
  have hf : r.clear FILE_NAME_HASH = none := by rw [Redis.clear, Function.update_self]
  simp [Redis.entry, Redis.publicSet, Redis.nameHash, Redis.zsetAt, Redis.hashAt, hz, hf]

theorem Redis.typed_load (h : r.Typed) (rows : List ShareFile) : (r.load rows).Typed := by
  induction rows generalizing r with
  | nil => exact h
  | cons row rest ih => exact ih (Redis.typed_publish h _ _ _)

theorem Redis.entry_load_other {mark : CString} (hmark : ∀ row ∈ rows, row.mark ≠ mark) :
    (r.load rows).entry mark = r.entry mark := by
  induction rows generalizing r with
  | nil => rfl
  | cons row rest ih =>
    refine (ih fun q hq => hmark q (List.mem_cons_of_mem row hq)).trans ?_
    exact r.entry_publish_other _ _ _ (hmark row List.mem_cons_self).symm

/-- A row is not overwritten, since its mark does not come again. -/
theorem Redis.entry_load (h : r.Typed) (hdistinct : (rows.map ShareFile.mark).Nodup)
    {row : ShareFile} (hrow : row ∈ rows) :
    (r.load rows).entry row.mark = (some row.pv, some row.filename) := by
  induction rows generalizing r with
  | nil => cases hrow
  | cons q rest ih =>
    rw [List.map_cons, List.nodup_cons] at hdistinct
    have hnext := Redis.typed_publish h q.pv q.mark q.filename
    rcases List.mem_cons.mp hrow with rfl | hrow
    · have hother : ∀ p ∈ rest, p.mark ≠ row.mark := fun p hp heq =>
        hdistinct.1 (List.mem_map.mpr ⟨p, hp, heq⟩)
      refine (Redis.entry_load_other hother).trans ?_
      change (r.publish row.pv row.mark row.filename).entry row.mark = _
      rw [Redis.entry, Redis.publicSet_publish _ _ _ h.zset, Redis.nameHash_publish _ _ _ h.hash]
      simp
    · exact ih hnext hdistinct.2 hrow

/-- A part of the entries after loading, as a map of the rows. -/
theorem part_load {β : Type} (part : Option Int × Option CString → Option β) (column : ShareFile → β)
    (hsome : ∀ row : ShareFile, part (some row.pv, some row.filename) = some (column row))
    (hnone : part (none, none) = none) (hdistinct : (rows.map ShareFile.mark).Nodup)
    (mark : CString) (x : β) :
    part ((r.clear.load rows).entry mark) = some x ↔
      ∃ row ∈ rows, row.mark = mark ∧ column row = x := by
  constructor
  · intro hpart
    by_cases hmark : ∃ row ∈ rows, row.mark = mark
    · obtain ⟨row, hrow, rfl⟩ := hmark
      rw [Redis.entry_load (typed_clear r) hdistinct hrow, hsome] at hpart
      exact ⟨row, hrow, rfl, Option.some.inj hpart⟩
    · push Not at hmark
      rw [Redis.entry_load_other hmark, entry_clear, hnone] at hpart
      cases hpart
  · rintro ⟨row, hrow, rfl, rfl⟩
    rw [Redis.entry_load (typed_clear r) hdistinct hrow, hsome]

theorem mirrors_load (hdistinct : (rows.map ShareFile.mark).Nodup) :
    (r.clear.load rows).Mirrors rows := by
  have htyped := Redis.typed_load (typed_clear r) rows
  exact ⟨⟨_, htyped.zsetAt_eq,
      part_load Prod.fst ShareFile.pv (fun _ => rfl) rfl hdistinct⟩,
    ⟨_, htyped.hashAt_eq,
      part_load Prod.snd ShareFile.filename (fun _ => rfl) rfl hdistinct⟩⟩

theorem Redis.Mirrors.perm {rows' : List ShareFile} (h : r.Mirrors rows) (hperm : rows.Perm rows') :
    r.Mirrors rows' := by
  obtain ⟨z, hz, hscore⟩ := h.zset
  obtain ⟨names, hf, hname⟩ := h.hash
  refine ⟨⟨z, hz, fun mark x => ?_⟩, ⟨names, hf, fun mark name => ?_⟩⟩
  · rw [hscore]
    simp only [hperm.mem_iff]
  · rw [hname]
    simp only [hperm.mem_iff]

end Load

/-! ## Pages -/

theorem ranking_perm (t : Tables) : t.ranking.Perm t.shareFileList := List.perm_insertionSort _ _

theorem ranking_sorted (t : Tables) : t.ranking.Pairwise fun a b => b.entry ≤ a.entry := by
  have : Std.Total fun a b : ShareFile => b.entry ≤ a.entry := ⟨fun a b => le_total _ _⟩
  have : IsTrans ShareFile fun a b => b.entry ≤ a.entry := ⟨fun _ _ _ h h' => h'.trans h⟩
  exact List.pairwise_insertionSort _ _

section Page

variable {r : Redis} {t : Tables} (h : r.Mirrors t.shareFileList) (hrows : Showable t.shareFileList)
include h

theorem Redis.Mirrors.typed : r.Typed := by
  obtain ⟨z, hz, -⟩ := h.zset
  obtain ⟨names, hf, -⟩ := h.hash
  exact ⟨by rw [hz]; rfl, by rw [hf]; rfl⟩

theorem Redis.Mirrors.score_iff (mark : CString) (x : Int) :
    r.publicSet.score mark = some x ↔ ∃ row ∈ t.shareFileList, row.mark = mark ∧ row.pv = x := by
  obtain ⟨z, hz, hscore⟩ := h.zset
  rw [Redis.publicSet, hz, Option.getD_some, hscore]

theorem Redis.Mirrors.entry {row : ShareFile} (hrow : row ∈ t.shareFileList) :
    r.entry row.mark = (some row.pv, some row.filename) := by
  obtain ⟨names, hf, hname⟩ := h.hash
  refine Prod.ext ((h.score_iff _ _).mpr ⟨row, hrow, rfl, rfl⟩) ?_
  change r.nameHash row.mark = some row.filename
  rw [Redis.nameHash, hf, Option.getD_some]
  exact (hname _ _).mpr ⟨row, hrow, rfl, rfl⟩

include hrows

/-- The set read from its end is the ranking. -/
theorem entries_reverse : r.publicSet.entries.reverse = t.ranking.map ShareFile.entry := by
  have hnodup : (t.shareFileList.map ShareFile.entry).Nodup := by
    refine List.Nodup.of_map Entry.member ?_
    rw [List.map_map]
    exact hrows.distinct
  have hperm : r.publicSet.entries.reverse.Perm (t.ranking.map ShareFile.entry) := by
    refine ((List.reverse_perm _).trans ?_).trans ((ranking_perm t).map _).symm
    rw [List.perm_ext_iff_of_nodup r.publicSet.unique.of_map hnodup]
    rintro ⟨x, m⟩
    rw [ScoredSet.mem_entries_iff, h.score_iff, List.mem_map]
    refine exists_congr fun row => and_congr_right fun _ => ?_
    rw [ShareFile.entry, Entry.mk.injEq, and_comm]
  refine hperm.eq_of_pairwise' (r := fun a b => b ≤ a) ?_ ?_
  · exact List.pairwise_reverse.mpr r.publicSet.sorted
  · exact List.pairwise_map.mpr (ranking_sorted t)

theorem page_of_mirrors {start count : Int} (hstart : 0 ≤ start) (hcount : 1 ≤ count)
    (hend : start + count < 2 ^ 31) :
    r.page start count = (0, t.rankingPage start count) := by
  have hmem : ∀ row ∈ t.ranking, row ∈ t.shareFileList := fun row hrow =>
    (ranking_perm t).subset hrow
  refine Redis.page_eq h.typed ?_ (fun row hrow => h.entry (hmem row hrow))
    (fun row hrow => hrows.nonneg row (hmem row hrow))
    (fun row hrow => hrows.short row (hmem row hrow)) hstart hcount hend
  rw [entries_reverse h hrows, List.map_map]
  rfl

end Page

/-! ## Requests -/

/-- The next request finds a set that mirrors the share list, or builds one. -/
def Store.rankable (s : Store) : Prop :=
  s.miscounted ∨ s.redis.Mirrors s.tables.shareFileList ∧
    s.tables.userFileCount shareCountUser ≠ none

/-- One request: its answer, and the store it leaves to the next. -/
theorem run_ranking_of_rankable {s : Store} (h : s.rankable)
    (hrows : Showable s.tables.shareFileList) {start count : Int} (hstart : 0 ≤ start)
    (hcount : 1 ≤ count) (hend : start + count < 2 ^ 31) :
    ((getRankingFilelist start count).run store s).1 =
        (rankingList (s.tables.rankingPage start count)).map
          (fun _ => (0, s.tables.rankingPage start count)) ∧
      ((getRankingFilelist start count).run store s).2.tables = s.tables ∧
      ((getRankingFilelist start count).run store s).2.redis.Mirrors s.tables.shareFileList := by
  have hperm : s.tables.shareFilesByPv.Perm s.tables.shareFileList := List.perm_insertionSort _ _
  have hsorted : s.tables.shareFilesByPv ≠ [] := fun hnil =>
    hrows.nonempty (List.perm_nil.mp (hnil ▸ hperm.symm))
  have hload : (s.redis.clear.load s.tables.shareFilesByPv).Mirrors s.tables.shareFileList :=
    (mirrors_load ((hperm.map _).nodup_iff.mpr hrows.distinct)).perm hperm
  obtain ⟨n, z, hn, hz, hmirrors⟩ : ∃ n z, s.tables.userFileCount shareCountUser = some n ∧
      s.redis.zsetAt FILE_PUBLIC_ZSET = some z ∧
      (s.redis.refresh s.tables).Mirrors s.tables.shareFileList := by
    rcases h with ⟨n, z, hn, hz, hne⟩ | ⟨hmirrors, hcounter⟩
    · exact ⟨n, z, hn, hz, by simpa [Redis.refresh, hn, hz, hne] using hload⟩
    · obtain ⟨n, hn⟩ := Option.ne_none_iff_exists'.mp hcounter
      obtain ⟨z, hz, -⟩ := hmirrors.zset
      refine ⟨n, z, hn, hz, ?_⟩
      by_cases heq : (z.card : Int) = n
      · simpa [Redis.refresh, hn, hz, heq] using hmirrors
      · simpa [Redis.refresh, hn, hz, heq] using hload
  have hanswer : s.ranking start count = (0, s.tables.rankingPage start count) := by
    rw [Store.ranking, hn, hz]
    simp only [hsorted, and_false, if_false]
    exact page_of_mirrors hmirrors hrows hstart hcount hend
  rw [run_getRankingFilelist, hanswer]
  refine ⟨?_, rfl, hmirrors⟩
  rw [loggedPage, if_pos rfl]

theorem shown_iff_pageFits {t : Tables} {start count : Int} :
    (rankingList (t.rankingPage start count)).map (fun _ => ((0 : Int), t.rankingPage start count)) =
      some (0, t.rankingPage start count) ↔ t.pageFits start count := by
  rw [Tables.pageFits]
  cases rankingList (t.rankingPage start count) <;> simp

/-- The files shown by `pages` requests one after the other, each for `count` files; `none` when
one of them is undefined. -/
def consecutivePages (count : Int) : Nat → Int → Store → Option (List (CString × Int))
  | 0, _, _ => some []
  | pages + 1, start, s => do
    let (_, page) ← ((getRankingFilelist start count).run store s).1
    let rest ← consecutivePages count pages (start + count)
      ((getRankingFilelist start count).run store s).2
    return page ++ rest

theorem consecutivePages_eq {count : Int} (hcount : 1 ≤ count) (pages : Nat) {start : Int}
    (hstart : 0 ≤ start) (hend : start + pages * count < 2 ^ 31) {s : Store} (h : s.rankable)
    (hrows : Showable s.tables.shareFileList)
    (hfits : ∀ k < pages, s.tables.pageFits (start + k * count) count) :
    consecutivePages count pages start s =
      some (((s.tables.ranking.drop start.toNat).take (pages * count.toNat)).map
        fun row => (row.filename, row.pv)) := by
  induction pages generalizing start s with
  | zero => simp [consecutivePages]
  | succ pages ih =>
    have hsplit : ((pages + 1 : Nat) : Int) * count = pages * count + count := by
      rw [Int.natCast_add, Int.add_mul]
      simp
    have hpos : 0 ≤ (pages : Int) * count := Int.mul_nonneg (by omega) (by omega)
    obtain ⟨hpage, htables, hmirrors⟩ :=
      run_ranking_of_rankable h hrows hstart hcount (by omega)
    have hfirst : s.tables.pageFits start count := by simpa using hfits 0 (by omega)
    rw [shown_iff_pageFits.mpr hfirst] at hpage
    have hcounter : s.tables.userFileCount shareCountUser ≠ none := by
      rcases h with ⟨n, z, hn, -⟩ | ⟨-, hcounter⟩
      · simp [hn]
      · exact hcounter
    have hlater : ∀ k < pages, s.tables.pageFits (start + count + k * count) count := by
      intro k hk
      have hnext := hfits (k + 1) (by omega)
      rwa [Int.natCast_add, Int.add_mul, Int.natCast_one, Int.one_mul,
        Int.add_comm (k * count), ← Int.add_assoc] at hnext
    have hnext := ih (show 0 ≤ start + count by omega) (by omega)
      (s := ((getRankingFilelist start count).run store s).2)
      (Or.inr ⟨by rwa [htables], by rwa [htables]⟩) (by rwa [htables]) (by rwa [htables])
    rw [htables] at hnext
    simp only [consecutivePages, hpage, hnext, Option.bind_eq_bind, Option.bind_some,
      Option.pure_def]
    rw [Tables.rankingPage, ← List.map_append, Int.toNat_add hstart (by omega),
      ← List.drop_drop, ← List.take_add, Nat.add_mul, Nat.one_mul, Nat.add_comm]

/-- Whatever Redis held: once the counter differs from the number of members, a request leaves the
two keys as the maps of the share list, and it returns 0 and shows its page of the ranking exactly
when the page fits the log line; and consecutive pages that all do show the whole ranking, each
shared file once. -/
theorem ranking_rebuilt {s : Store} (h : s.miscounted) (hrows : Showable s.tables.shareFileList)
    {start count : Int} (hstart : 0 ≤ start) (hcount : 1 ≤ count) (hend : start + count < 2 ^ 31) :
    (((getRankingFilelist start count).run store s).1 =
        some (0, s.tables.rankingPage start count) ↔ s.tables.pageFits start count) ∧
      ((getRankingFilelist start count).run store s).2.redis.Mirrors s.tables.shareFileList ∧
      s.tables.ranking.Perm s.tables.shareFileList ∧
      (s.tables.ranking.Pairwise fun a b => b.entry ≤ a.entry) ∧
      ∀ pages : Nat, pages * count < 2 ^ 31 → s.tables.shareFileList.length ≤ pages * count →
        (∀ k < pages, s.tables.pageFits (k * count) count) →
        consecutivePages count pages 0 s =
          some (s.tables.ranking.map fun row => (row.filename, row.pv)) := by
  obtain ⟨hpage, -, hmirrors⟩ := run_ranking_of_rankable (Or.inl h) hrows hstart hcount hend
  refine ⟨?_, hmirrors, ranking_perm _, ranking_sorted _, fun pages hlast hall hfits => ?_⟩
  · rw [hpage]
    exact shown_iff_pageFits
  rw [consecutivePages_eq hcount pages le_rfl (by omega) (Or.inl h) hrows (by simpa using hfits)]
  have hlength : s.tables.ranking.length ≤ pages * count.toNat := by
    rw [(ranking_perm _).length_eq]
    have hnat : ((pages * count.toNat : Nat) : Int) = pages * count := by
      rw [Int.natCast_mul, Int.toNat_of_nonneg (by omega)]
    omega
  rw [Int.toNat_zero, List.drop_zero, List.take_of_length_le hlength]

/-- Two files are shared, then Redis loses everything. -/
def sharedThenFlushed : Store :=
  { serveAll Store.empty
      [.shareFile .ziplist (bytes "t") (bytes "u") (bytes "m") (bytes "f"),
        .shareFile .ziplist (bytes "t") (bytes "v") (bytes "n") (bytes "g"),
        .pvShareFile .ziplist (bytes "n") (bytes "g")] with
    redis := .empty }

theorem ranking_rebuilt_flushed :
    ((getRankingFilelist 0 1).run store sharedThenFlushed).1 =
        some (0, sharedThenFlushed.tables.rankingPage 0 1) ∧
      consecutivePages 1 2 0 sharedThenFlushed =
        some (sharedThenFlushed.tables.ranking.map fun row => (row.filename, row.pv)) := by
  have hrebuilt := ranking_rebuilt (s := sharedThenFlushed) ⟨2, .empty, by decide, rfl, by decide⟩
    ⟨by decide, by decide, by decide, by decide⟩ (by decide : (0 : Int) ≤ 0)
    (by decide : (1 : Int) ≤ 1) (by decide)
  exact ⟨hrebuilt.1.mpr (by decide +kernel),
    hrebuilt.2.2.2.2 2 (by decide) (by decide) (by decide +kernel)⟩

/-- A hundred and eight files that nobody has downloaded, all with the name `f`. -/
def crowdedRows : List ShareFile :=
  (List.range 108).map fun i => ⟨bytes "u", [i.toUInt8 + 1], bytes "t", bytes "f", 0⟩

def crowdedShares : Store :=
  { Store.empty with
    tables := { Tables.empty with
      shareFileList := crowdedRows
      userFileCount := fun user => if user = shareCountUser then some 108 else none } }

/-- They can be shown, but not on one page. -/
theorem ranking_overruns : crowdedShares.miscounted ∧ Showable crowdedShares.tables.shareFileList ∧
    ((getRankingFilelist 0 108).run store crowdedShares).1 = none := by
  have hmiscounted : crowdedShares.miscounted := ⟨108, .empty, rfl, rfl, by decide⟩
  have hsame : ∀ row ∈ crowdedRows, row.filename = bytes "f" ∧ row.pv = 0 := by decide
  have hshowable : Showable crowdedShares.tables.shareFileList := by
    refine ⟨by decide, fun row hrow => (hsame row hrow).2.ge, ?_, ?_⟩
    · change (crowdedRows.map ShareFile.mark).Nodup
      decide
    · change ∀ row ∈ crowdedRows, row.mark.length < valuesIdSize
      decide
  refine ⟨hmiscounted, hshowable, ?_⟩
  obtain ⟨hpage, -, -⟩ := run_ranking_of_rankable (Or.inl hmiscounted) hshowable
    (by decide : (0 : Int) ≤ 0) (by decide : (1 : Int) ≤ 108) (by decide)
  have hperm := ranking_perm crowdedShares.tables
  have hlength : crowdedShares.tables.ranking.length = 108 := by
    rw [hperm.length_eq]
    decide
  have hrows : crowdedShares.tables.rankingPage 0 108 = List.replicate 108 (bytes "f", 0) := by
    rw [Tables.rankingPage, Int.toNat_zero, List.drop_zero,
      List.take_of_length_le (by rw [hlength]; decide), List.eq_replicate_iff, List.length_map, hlength]
    refine ⟨rfl, fun file hfile => ?_⟩
    obtain ⟨row, hrow, rfl⟩ := List.mem_map.mp hfile
    obtain ⟨hname, hpv⟩ := hsame row (hperm.subset hrow)
    rw [hname, hpv]
  have hlong : rankingList (List.replicate 108 (bytes "f", 0)) = none := by decide +kernel
  rw [hpage, hrows, hlong]
  rfl

end HfDfs
