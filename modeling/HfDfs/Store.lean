import Mathlib.Data.Finset.Basic
import HfDfs.Library.Procedure
import HfDfs.Redis.Public
import HfDfs.Mysql.Tables

/-!
# The store the programs share, and the calls they make to it

One state holds the MySQL tables, Redis and the files in FastDFS storage.
A request handler is a procedure over the commands below: the statements
of `deal_mysql.c`, the wrappers of `redis_op.c` and the two storage tools.
-/

namespace HfDfs

set_option autoImplicit false

open Procedures Zlexcount

structure Store where
  tables : Tables
  redis : Redis
  /-- ids of the files FastDFS holds -/
  storage : Finset CString

def Store.empty : Store := ⟨.empty, .empty, ∅⟩

inductive Command where
  | ropConnectdbNopwd
  | msqlConn
  | mysqlQuery (statement : Statement)
  | processResultOne (query : Query) (save : Bool)
  /-- `mysql_query` and `mysql_store_result` of the ranking's SELECT -/
  | selectShareFilesByPv
  /-- the same for a user's file list -/
  | selectUserFiles (order : FileOrder) (user : CString) (start count : Int)
  | redisCommand (command : RedisCommand)
  | fdfsUploadFile (fileid : CString)
  | removeFileFromStorage (fileid : CString)

/-- What `process_result_one` returns: -1, 1, 2, or 0 with the first row's first
column copied to the buffer. -/
inductive ResultOne where
  | failed
  | noRow
  | notSaved
  | row (buf : Value)
deriving DecidableEq, Repr

@[reducible] def Reply : Command → Type
  | .ropConnectdbNopwd => Bool
  | .msqlConn => Bool
  | .mysqlQuery _ => Bool
  | .processResultOne _ _ => ResultOne
  | .selectShareFilesByPv => Option (List ShareFile)
  | .selectUserFiles _ _ _ _ => Option (List (UserFile × FileInfo))
  | .redisCommand _ => RedisReply
  | .fdfsUploadFile _ => Bool
  | .removeFileFromStorage _ => Bool

def resultOne (rows : List Value) (save : Bool) : ResultOne :=
  match rows with
  | [] => .noRow
  | v :: _ => if save then .row v else .notSaved

@[simp] theorem resultOne_nil (save : Bool) : resultOne [] save = .noRow := rfl

@[simp] theorem resultOne_cons (v : Value) (rest : List Value) (save : Bool) :
    resultOne (v :: rest) save = if save then .row v else .notSaved := rfl

@[simp] theorem resultOne_null {ρ : Type} (rows : List ρ) (p : ρ → Bool) (f : ρ → Value) :
    resultOne ((rows.filter p).map f) false = if rows.any p then .notSaved else .noRow := by
  induction rows with
  | nil => rfl
  | cons r rest ih =>
    cases h : p r with
    | false => simpa [h] using ih
    | true => simp [h]

@[simp] theorem resultOne_first {ρ : Type} (rows : List ρ) (p : ρ → Bool) (f : ρ → Value) :
    resultOne ((rows.filter p).map f) true =
      match rows.find? p with
      | none => .noRow
      | some r => .row (f r) := by
  induction rows with
  | nil => rfl
  | cons r rest ih =>
    cases h : p r with
    | false => simpa [h] using ih
    | true => simp [h]

/-- A `Bool` reply says whether the call succeeded (returned 0, or a connection). -/
@[simp] def Store.exec : (c : Command) → Store → Reply c × Store
  | .ropConnectdbNopwd, s => (true, s)
  | .msqlConn, s => (true, s)
  | .mysqlQuery statement, s =>
    match statement.apply s.tables with
    | none => (false, s)
    | some tables => (true, { s with tables := tables })
  | .processResultOne query save, s => (resultOne (query.result s.tables) save, s)
  | .selectShareFilesByPv, s => (some s.tables.shareFilesByPv, s)
  | .selectUserFiles order user start count, s =>
    (s.tables.userFilesLimit order user start count, s)
  | .redisCommand command, s =>
    ((s.redis.exec command).1, { s with redis := (s.redis.exec command).2 })
  | .fdfsUploadFile fileid, s => (true, { s with storage := insert fileid s.storage })
  | .removeFileFromStorage fileid, s => (true, { s with storage := s.storage.erase fileid })

@[simp] def Command.failed : (c : Command) → Reply c
  | .ropConnectdbNopwd => false
  | .msqlConn => false
  | .mysqlQuery _ => false
  | .processResultOne _ _ => .failed
  | .selectShareFilesByPv => none
  | .selectUserFiles _ _ _ _ => none
  | .redisCommand _ => .error
  | .fdfsUploadFile _ => false
  | .removeFileFromStorage _ => false

/-- MySQL and storage calls may fail, Redis commands do not. -/
@[simp] def Command.fallible : Command → Bool
  | .redisCommand _ => false
  | _ => true

@[simps] def store : Semantics Command Reply Store where
  exec := Store.exec
  fallible := Command.fallible
  failed := Command.failed

abbrev Handler := Procedure Command Reply

@[simp] def ropConnectdbNopwd : Handler Bool := .call .ropConnectdbNopwd .done

@[simp] def msqlConn : Handler Bool := .call .msqlConn .done

@[simp] def mysqlQuery (statement : Statement) : Handler Bool := .call (.mysqlQuery statement) .done

/-- `process_result_one` with a buffer for the first column. -/
@[simp] def processResultOne (query : Query) : Handler ResultOne := .call (.processResultOne query true) .done

/-- `process_result_one` with `NULL` for the buffer. -/
@[simp] def processResultOneNull (query : Query) : Handler ResultOne :=
  .call (.processResultOne query false) .done

@[simp] def selectShareFilesByPv : Handler (Option (List ShareFile)) := .call .selectShareFilesByPv .done

@[simp] def selectUserFiles (order : FileOrder) (user : CString) (start count : Int) :
    Handler (Option (List (UserFile × FileInfo))) :=
  .call (.selectUserFiles order user start count) .done

@[simp] def fdfsUploadFile (fileid : CString) : Handler Bool := .call (.fdfsUploadFile fileid) .done

@[simp] def removeFileFromStorage (fileid : CString) : Handler Bool :=
  .call (.removeFileFromStorage fileid) .done

@[simp] def redisCommand (command : RedisCommand) : Handler RedisReply := .call (.redisCommand command) .done

/-! ## `redis_op.c` -/

/-- `reply->integer`, which is 0 in a reply of another type. -/
@[simp] def RedisReply.toInteger : RedisReply → Int
  | .integer n => n
  | _ => 0

def ropZsetAdd (key : CString) (score : Int) (member : CString) : Handler Int := do
  let reply ← redisCommand (.zadd key score member)
  return if reply.toInteger ≠ 1 then -1 else 0

def ropZsetZrem (key member : CString) : Handler Int := do
  let reply ← redisCommand (.zrem key member)
  return if reply.toInteger ≠ 1 then -1 else 0

/-- The reply to `ZINCRBY` is the new score and never the text `OK`, so the
wrapper reports failure always. -/
def ropZsetIncrement (key member : CString) : Handler Int := do
  match ← redisCommand (.zincrby key 1 member) with
  | .status => return 0
  | _ => return -1

def ropZsetZcard (key : CString) : Handler Int := do
  match ← redisCommand (.zcard key) with
  | .integer n => return n
  | _ => return -1

def ropZsetGetScore (key member : CString) : Handler Int := do
  match ← redisCommand (.zscore key member) with
  | .score x => return x
  | _ => return -1

def ropZsetExit (key member : CString) (enc : Encoding) : Handler Int := do
  match ← redisCommand (.zlexcount key member enc) with
  | .integer n => return n
  | _ => return -1

def ropHashSet (key field value : CString) : Handler Int := do
  match ← redisCommand (.hset key field value) with
  | .integer _ => return 0
  | _ => return -1

def ropHashDel (key field : CString) : Handler Int := do
  let reply ← redisCommand (.hdel key field)
  -- the line it logs with -1 has a `%s` more than strings; the call is taken to return
  return if reply.toInteger ≠ 1 then -1 else 0

def ropHashGet (key field : CString) : Handler (Option CString) := do
  match ← redisCommand (.hget key field) with
  | .bulk text => return some text
  | _ => return none

/-- At most as many values as the positions ask for are kept, each cut to the room
for it. `elements > count` compares unsigned, so a negative count keeps all. -/
def ropZsetZrevrange (key : CString) (fromPos endPos : Int) :
    Handler (Option (List CString)) := do
  let count := int32 (endPos - fromPos + 1)
  match ← redisCommand (.zrevrange key fromPos endPos) with
  | .array items =>
    let kept := if 0 ≤ count then items.take count.toNat else items
    return some (kept.map (·.take (valuesIdSize - 1)))
  | _ => return none

def ropSetexString (key : CString) (seconds : Nat) (value : CString) : Handler Int := do
  match ← redisCommand (.setex key seconds value) with
  | .status => return 0
  | _ => return -1

def ropGetString (key : CString) : Handler (Option CString) := do
  match ← redisCommand (.get key) with
  | .bulk text => return some text
  | _ => return none

def ropDelKey (key : CString) : Handler Int := do
  match ← redisCommand (.del key) with
  | .integer n => return if n > 0 then 0 else -1
  | _ => return -1

/-! ## What the wrappers do to the public set and the name hash -/

section Runs

variable (s : Store) (mark name : CString) (score : Int) (enc : Encoding)

theorem run_ropZsetExit :
    (ropZsetExit FILE_PUBLIC_ZSET mark enc).run store s = (s.redis.presence mark enc, s) := by
  cases h : s.redis.zsetAt FILE_PUBLIC_ZSET with
  | none => simp [ropZsetExit, Redis.exec, Redis.presence, h]
  | some z => simp [ropZsetExit, Redis.exec, Redis.presence, h]

theorem run_ropZsetAdd :
    ((ropZsetAdd FILE_PUBLIC_ZSET score mark).run store s).2 =
      { s with redis := s.redis.rank score mark } := rfl

theorem run_ropHashSet :
    ((ropHashSet FILE_NAME_HASH mark name).run store s).2 =
      { s with redis := s.redis.setName mark name } := by
  cases h : s.redis.hashAt FILE_NAME_HASH with
  | none => simp [ropHashSet, Redis.exec, Redis.setName, h]
  | some fields => simp [ropHashSet, Redis.exec, Redis.setName, h]

theorem run_ropZsetZrem :
    (ropZsetZrem FILE_PUBLIC_ZSET mark).run store s =
      (if s.redis.ranked mark then 0 else -1, { s with redis := s.redis.unrank mark }) := by
  cases h : s.redis.zsetAt FILE_PUBLIC_ZSET with
  | none => simp [ropZsetZrem, Redis.exec, Redis.unrank, Redis.ranked, Redis.publicSet, h]
  | some z =>
    cases hz : z.score mark with
    | none => simp [ropZsetZrem, Redis.exec, Redis.unrank, Redis.ranked, Redis.publicSet, h, hz]
    | some x => simp [ropZsetZrem, Redis.exec, Redis.unrank, Redis.ranked, Redis.publicSet, h, hz]

theorem run_ropHashDel :
    (ropHashDel FILE_NAME_HASH mark).run store s =
      (if s.redis.named mark then 0 else -1, { s with redis := s.redis.unname mark }) := by
  cases h : s.redis.hashAt FILE_NAME_HASH with
  | none => simp [ropHashDel, Redis.exec, Redis.unname, Redis.named, Redis.nameHash, h]
  | some fields =>
    cases hf : fields mark with
    | none => simp [ropHashDel, Redis.exec, Redis.unname, Redis.named, Redis.nameHash, h, hf]
    | some x => simp [ropHashDel, Redis.exec, Redis.unname, Redis.named, Redis.nameHash, h, hf]

theorem run_ropZsetIncrement :
    (ropZsetIncrement FILE_PUBLIC_ZSET mark).run store s =
      (-1, { s with redis := s.redis.download mark }) := by
  cases h : s.redis.zsetAt FILE_PUBLIC_ZSET with
  | none => simp [ropZsetIncrement, Redis.exec, Redis.download, h]
  | some z => simp [ropZsetIncrement, Redis.exec, Redis.download, h]

end Runs

/-- A query changes nothing, so its failure shows in its reply alone. -/
theorem runFaulty_processResultOne {α : Type} (faults : Nat → Bool) (n : Nat) (query : Query)
    (save : Bool) (next : ResultOne → Handler α) (s : Store) :
    Procedure.runFaulty store faults n (.call (.processResultOne query save) next) s =
      Procedure.runFaulty store faults (n + 1)
        (next (if faults n then .failed else resultOne (query.result s.tables) save)) s := by
  cases h : faults n <;> simp [Procedure.runFaulty_call, h]

/-- The reserved `user_file_count` row that counts the shared files. -/
def shareCountUser : CString := bytes "xxx_share_xxx_file_xxx_list_xxx_count_xxx"

/-- The file mark of the public set: md5, then file name, with nothing between. -/
def fileid (md5 filename : CString) : CString := md5 ++ filename

end HfDfs
