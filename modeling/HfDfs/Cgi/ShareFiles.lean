import HfDfs.Store
import HfDfs.Cgi.Http

/-!
# `sharefiles_cgi.c`: the ranking of the shared files
-/

namespace HfDfs

set_option autoImplicit false

open Procedures ScoredSets CJson

/-- Load the rows into the public set and the name hash, one after the other. -/
def loadRanking : List ShareFile → Handler Unit
  | [] => return ()
  | row :: rest => do
    let _ ← ropZsetAdd FILE_PUBLIC_ZSET row.pv (fileid row.md5 row.filename)
    let _ ← ropHashSet FILE_NAME_HASH (fileid row.md5 row.filename) row.filename
    loadRanking rest

/-- The file name and score of each member; `none` when one of them is missing. -/
def readRanking : List CString → Handler (Option (List (CString × Int)))
  | [] => return some []
  | value :: rest => do
    match ← ropHashGet FILE_NAME_HASH value with
    | none => return none
    | some filename =>
      let score ← ropZsetGetScore FILE_PUBLIC_ZSET value
      if score = -1 then return none
      match ← readRanking rest with
      | none => return none
      | some files => return some ((filename, score) :: files)

def rankingItem (file : CString × Int) : Item :=
  .object [(bytes "filename", .string file.1), (bytes "pv", .number (.ofInt file.2))]

def rankingList (files : List (CString × Int)) : Option CString := do
  let out ← print (.object [(bytes "files", .array (files.map rankingItem))])
  logLine out
  return out

/-- The page of the ranking, from Redis; `none` stands for undefined behaviour. -/
def pageRanking (start count : Int) : Handler (Option (Int × List (CString × Int))) := do
  -- `calloc` of a negative number of values
  if count < 0 then return some (-1, [])
  match ← ropZsetZrevrange FILE_PUBLIC_ZSET start (int32 (start + count - 1)) with
  | none => return some (-1, [])
  | some values =>
    match ← readRanking values with
    | none => return some (-1, [])
    | some files => return (rankingList files).map fun _ => (0, files)

/-- Clear Redis and load the share list again, or fail when there is none. -/
def reloadRanking : Handler Bool := do
  let _ ← ropDelKey FILE_PUBLIC_ZSET
  let _ ← ropDelKey FILE_NAME_HASH
  match ← selectShareFilesByPv with
  | none => return false
  | some [] => return false
  | some rows =>
    loadRanking rows
    return true

def getRankingFilelist (start count : Int) : Handler (Option (Int × List (CString × Int))) := do
  if !(← ropConnectdbNopwd) then return some (-1, [])
  if !(← msqlConn) then return some (-1, [])
  let _ ← mysqlQuery .setNames
  match ← processResultOne (.userFileCountQuoted shareCountUser) with
  | .row tmp =>
    let sqlNum := tmp.atoi
    let redisNum ← ropZsetZcard FILE_PUBLIC_ZSET
    if redisNum = -1 then return some (-1, [])
    if redisNum ≠ sqlNum then
      if !(← reloadRanking) then return some (-1, [])
      pageRanking start count
    else pageRanking start count
  | _ => return some (-1, [])

/-! ## Complete runs -/

def Redis.clear (r : Redis) : Redis :=
  Function.update (Function.update r FILE_PUBLIC_ZSET none) FILE_NAME_HASH none

def Redis.load (r : Redis) (rows : List ShareFile) : Redis :=
  rows.foldl (fun r row => r.publish row.pv (fileid row.md5 row.filename) row.filename) r

def Redis.refresh (r : Redis) (t : Tables) : Redis :=
  match t.userFileCount shareCountUser, r.zsetAt FILE_PUBLIC_ZSET with
  | some n, some z => if (z.card : Int) = n then r else r.clear.load t.shareFilesByPv
  | _, _ => r

theorem run_loadRanking (rows : List ShareFile) (s : Store) :
    (loadRanking rows).run store s = ((), { s with redis := s.redis.load rows }) := by
  induction rows generalizing s with
  | nil => rfl
  | cons row rest ih =>
    simp [loadRanking, Procedure.run_bind, run_ropZsetAdd, run_ropHashSet, ih, Redis.load,
      Redis.publish]

theorem run_ropHashGet (value : CString) (s : Store) :
    (ropHashGet FILE_NAME_HASH value).run store s = (s.redis.nameHash value, s) := by
  cases h : s.redis.hashAt FILE_NAME_HASH with
  | none => simp [ropHashGet, Redis.exec, Redis.nameHash, h]
  | some fields =>
    cases hf : fields value with
    | none => simp [ropHashGet, Redis.exec, Redis.nameHash, h, hf]
    | some name => simp [ropHashGet, Redis.exec, Redis.nameHash, h, hf]

theorem run_ropZsetGetScore (value : CString) (s : Store) :
    (ropZsetGetScore FILE_PUBLIC_ZSET value).run store s =
      ((s.redis.publicSet.score value).getD (-1), s) := by
  cases h : s.redis.zsetAt FILE_PUBLIC_ZSET with
  | none => simp [ropZsetGetScore, Redis.exec, Redis.publicSet, h]
  | some z =>
    cases hz : z.score value with
    | none => simp [ropZsetGetScore, Redis.exec, Redis.publicSet, h, hz]
    | some x => simp [ropZsetGetScore, Redis.exec, Redis.publicSet, h, hz]

/-- What the loop over the members answers: all of them, or nothing. -/
def Redis.files (r : Redis) : List CString → Option (List (CString × Int))
  | [] => some []
  | value :: rest =>
    match r.nameHash value, (r.publicSet.score value).getD (-1) with
    | none, _ => none
    | some _, -1 => none
    | some filename, score => (r.files rest).map ((filename, score) :: ·)

theorem run_readRanking (values : List CString) (s : Store) :
    (readRanking values).run store s = (s.redis.files values, s) := by
  induction values with
  | nil => rfl
  | cons value rest ih =>
    cases hname : s.redis.nameHash value with
    | none => simp [readRanking, Procedure.run_bind, run_ropHashGet, Redis.files, hname]
    | some filename =>
      by_cases hscore : (s.redis.publicSet.score value).getD (-1) = -1
      · simp [readRanking, Procedure.run_bind, run_ropHashGet, run_ropZsetGetScore, Redis.files,
          hname, hscore]
      · cases hrest : s.redis.files rest with
        | none =>
          simp [readRanking, Procedure.run_bind, run_ropHashGet, run_ropZsetGetScore,
            Redis.files, hname, hscore, ih, hrest]
        | some files =>
          simp [readRanking, Procedure.run_bind, run_ropHashGet, run_ropZsetGetScore,
            Redis.files, hname, hscore, ih, hrest]

/-- The members of positions `fromPos` to `endPos` as `rop_zset_zrevrange` copies them. -/
def zrevrangeValues (z : ScoredSet CString) (fromPos endPos : Int) : List CString :=
  let count := int32 (endPos - fromPos + 1)
  let items := Redis.revrange z fromPos endPos
  (if 0 ≤ count then items.take count.toNat else items).map (·.take (valuesIdSize - 1))

/-- The answer read from Redis, before it is logged. -/
def Redis.page (r : Redis) (start count : Int) : Int × List (CString × Int) :=
  if count < 0 then (-1, [])
  else match r.zsetAt FILE_PUBLIC_ZSET with
    | none => (-1, [])
    | some z =>
      match r.files (zrevrangeValues z start (int32 (start + count - 1))) with
      | none => (-1, [])
      | some files => (0, files)

/-- An answer with files in it is given only after it is logged. -/
def loggedPage (answer : Int × List (CString × Int)) : Option (Int × List (CString × Int)) :=
  if answer.1 = 0 then (rankingList answer.2).map fun _ => answer else some answer

theorem run_pageRanking (start count : Int) (s : Store) :
    (pageRanking start count).run store s = (loggedPage (s.redis.page start count), s) := by
  by_cases hcount : count < 0
  · simp [pageRanking, Redis.page, loggedPage, hcount]
  cases hz : s.redis.zsetAt FILE_PUBLIC_ZSET with
  | none => simp [pageRanking, Redis.page, loggedPage, hcount, ropZsetZrevrange, Redis.exec, hz]
  | some z =>
    cases hfiles : s.redis.files (zrevrangeValues z start (int32 (start + count - 1))) with
    | none =>
      rw [zrevrangeValues] at hfiles
      simp [pageRanking, Redis.page, loggedPage, hcount, ropZsetZrevrange, Redis.exec, hz,
        zrevrangeValues, Procedure.run_bind, run_readRanking, hfiles]
    | some files =>
      rw [zrevrangeValues] at hfiles
      simp [pageRanking, Redis.page, loggedPage, hcount, ropZsetZrevrange, Redis.exec, hz,
        zrevrangeValues, Procedure.run_bind, run_readRanking, hfiles]

theorem run_reloadRanking (s : Store) :
    (reloadRanking).run store s =
      (!s.tables.shareFilesByPv.isEmpty,
        { s with redis := s.redis.clear.load s.tables.shareFilesByPv }) := by
  cases hrows : s.tables.shareFilesByPv with
  | nil =>
    simp [reloadRanking, ropDelKey, Redis.exec, hrows, Redis.clear, Redis.load]
  | cons row rest =>
    simp [reloadRanking, ropDelKey, Redis.exec, hrows, Procedure.run_bind, run_loadRanking,
      Redis.clear]

def Store.ranking (s : Store) (start count : Int) : Int × List (CString × Int) :=
  match s.tables.userFileCount shareCountUser, s.redis.zsetAt FILE_PUBLIC_ZSET with
  | some n, some z =>
    if (z.card : Int) ≠ n ∧ s.tables.shareFilesByPv = [] then (-1, [])
    else (s.redis.refresh s.tables).page start count
  | _, _ => (-1, [])

theorem run_getRankingFilelist (start count : Int) (s : Store) :
    (getRankingFilelist start count).run store s =
      (loggedPage (s.ranking start count), { s with redis := s.redis.refresh s.tables }) := by
  cases hcount : s.tables.userFileCount shareCountUser with
  | none => simp [getRankingFilelist, Store.ranking, loggedPage, Redis.refresh, hcount]
  | some n =>
    cases hz : s.redis.zsetAt FILE_PUBLIC_ZSET with
    | none =>
      simp [getRankingFilelist, Store.ranking, loggedPage, Redis.refresh, hcount, ropZsetZcard,
        Redis.exec, hz]
    | some z =>
      have hcard : (z.card : Int) ≠ -1 := by omega
      by_cases hn : (z.card : Int) = n
      · simp [getRankingFilelist, Store.ranking, hcount, ropZsetZcard, Redis.exec, hz, ← hn,
          run_pageRanking, Redis.refresh]
      · cases hrows : s.tables.shareFilesByPv with
        | nil =>
          simp [getRankingFilelist, Store.ranking, loggedPage, hcount, ropZsetZcard, Redis.exec,
            hz, hn, hcard, Procedure.run_bind, run_reloadRanking, hrows, Redis.refresh]
        | cons row rest =>
          simp [getRankingFilelist, Store.ranking, hcount, ropZsetZcard, Redis.exec, hz, hn, hcard,
            Procedure.run_bind, run_reloadRanking, run_pageRanking, hrows, Redis.refresh]

end HfDfs
