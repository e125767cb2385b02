import Mathlib.Logic.Function.Basic
import HfDfs.Library.ScoredSet
import HfDfs.Redis.Zlexcount

/-!
# The Redis key space and the commands the programs send

Login tokens, the public sorted set and the file-name hash share one key
space. A command on a key of another type is refused with an error reply
and changes nothing. Redis drops a sorted set that becomes empty; an
emptied hash is kept here, since no command of the programs tells it from
an absent key.
-/

namespace HfDfs

set_option autoImplicit false

open ScoredSets Zlexcount

/-- `VALUES_ID_SIZE`, the room for one value in an array of them. -/
def valuesIdSize : Nat := 1024

inductive RedisValue where
  | string (value : CString)
  | hash (fields : CString → Option CString)
  | zset (members : ScoredSet CString)

abbrev Redis := CString → Option RedisValue

inductive RedisCommand where
  | zadd (key : CString) (score : Int) (member : CString)
  | zrem (key member : CString)
  | zincrby (key : CString) (increment : Int) (member : CString)
  | zcard (key : CString)
  | zscore (key member : CString)
  | zlexcount (key member : CString) (enc : Encoding)
  | zrevrange (key : CString) (start stop : Int)
  | hset (key field value : CString)
  | hget (key field : CString)
  | hdel (key field : CString)
  | del (key : CString)
  | get (key : CString)
  | setex (key : CString) (seconds : Nat) (value : CString)

/-- A bulk reply that is the decimal text of a score is kept as the number. -/
inductive RedisReply where
  | integer (n : Int)
  | bulk (text : CString)
  | score (x : Int)
  | nil
  | array (items : List CString)
  | status
  | error

namespace Redis

def empty : Redis := fun _ => none

/-- The sorted set at a key, empty for an absent key; `none` for a key of another type. -/
def zsetAt (r : Redis) (key : CString) : Option (ScoredSet CString) :=
  match r key with
  | none => some .empty
  | some (.zset z) => some z
  | some _ => none

def hashAt (r : Redis) (key : CString) : Option (CString → Option CString) :=
  match r key with
  | none => some fun _ => none
  | some (.hash fields) => some fields
  | some _ => none

def putZset (r : Redis) (key : CString) (z : ScoredSet CString) : Redis :=
  Function.update r key (if z.entries = [] then none else some (.zset z))

def putHash (r : Redis) (key : CString) (fields : CString → Option CString) : Redis :=
  Function.update r key (some (.hash fields))

/-- `zrevrangeGeneric`: both ends are inclusive, a negative index counts from the end. -/
def revrange (z : ScoredSet CString) (start stop : Int) : List CString :=
  let len : Int := z.card
  let start := if start < 0 then len + start else start
  let stop := if stop < 0 then len + stop else stop
  let start := if start < 0 then 0 else start
  if start > stop ∨ start ≥ len then []
  else
    let stop := if stop ≥ len then len - 1 else stop
    ((z.entries.reverse.map Entry.member).drop start.toNat).take (stop - start + 1).toNat

def exec (r : Redis) : RedisCommand → RedisReply × Redis
  | .zadd key score member =>
    match r.zsetAt key with
    | none => (.error, r)
    | some z => (.integer (if z.score member = none then 1 else 0), r.putZset key (z.put member score))
  | .zrem key member =>
    match r.zsetAt key with
    | none => (.error, r)
    | some z =>
      if z.score member = none then (.integer 0, r)
      else (.integer 1, r.putZset key (z.erase member))
  | .zincrby key increment member =>
    match r.zsetAt key with
    | none => (.error, r)
    | some z =>
      let score := (z.score member).getD 0 + increment
      (.score score, r.putZset key (z.put member score))
  | .zcard key =>
    match r.zsetAt key with
    | none => (.error, r)
    | some z => (.integer z.card, r)
  | .zscore key member =>
    match r.zsetAt key with
    | none => (.error, r)
    | some z =>
      match z.score member with
      | none => (.nil, r)
      | some x => (.score x, r)
  | .zlexcount key member enc =>
    match r.zsetAt key with
    | none => (.error, r)
    | some z => (.integer (zlexcount (z.entries.map Entry.member) member enc), r)
  | .zrevrange key start stop =>
    match r.zsetAt key with
    | none => (.error, r)
    | some z => (.array (revrange z start stop), r)
  | .hset key field value =>
    match r.hashAt key with
    | none => (.error, r)
    | some fields =>
      (.integer (if fields field = none then 1 else 0),
        r.putHash key (Function.update fields field (some value)))
  | .hget key field =>
    match r.hashAt key with
    | none => (.error, r)
    | some fields =>
      match fields field with
      | none => (.nil, r)
      | some value => (.bulk value, r)
  | .hdel key field =>
    match r.hashAt key with
    | none => (.error, r)
    | some fields =>
      if fields field = none then (.integer 0, r)
      else (.integer 1, r.putHash key (Function.update fields field none))
  | .del key => (.integer (if (r key).isNone then 0 else 1), Function.update r key none)
  | .get key =>
    match r key with
    | none => (.nil, r)
    | some (.string value) => (.bulk value, r)
    | some _ => (.error, r)
  | .setex key _ value => (.status, Function.update r key (some (.string value)))

@[simp] theorem zsetAt_empty (key : CString) : zsetAt empty key = some .empty := rfl

@[simp] theorem hashAt_empty (key : CString) : hashAt empty key = some fun _ => none := rfl

@[simp] theorem zsetAt_putZset_self (r : Redis) (key : CString) (z : ScoredSet CString) :
    (r.putZset key z).zsetAt key = some z := by
  by_cases hz : z.entries = []
  · have : z = .empty := ScoredSet.ext_score fun m => by
      simp [ScoredSet.score, ScoredSet.empty, hz]
    simp [putZset, zsetAt, this, ScoredSet.empty]
  · simp [putZset, zsetAt, hz]

@[simp] theorem hashAt_putHash_self (r : Redis) (key : CString)
    (fields : CString → Option CString) : (r.putHash key fields).hashAt key = some fields := by
  simp [putHash, hashAt]

theorem zsetAt_congr {r t : Redis} {key : CString} (h : t key = r key) :
    t.zsetAt key = r.zsetAt key := by simp [zsetAt, h]

theorem hashAt_congr {r t : Redis} {key : CString} (h : t key = r key) :
    t.hashAt key = r.hashAt key := by simp [hashAt, h]

@[simp] theorem putZset_other (r : Redis) {key other : CString} (z : ScoredSet CString)
    (h : other ≠ key) : r.putZset key z other = r other := by
  simp [putZset, h]

@[simp] theorem putHash_other (r : Redis) {key other : CString}
    (fields : CString → Option CString) (h : other ≠ key) :
    r.putHash key fields other = r other := by
  simp [putHash, h]

end Redis

end HfDfs
