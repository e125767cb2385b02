import HfDfs.Requests
import HfDfs.Properties.Deletion

/-!
# The names no user may have

The counter of shared files is a row of `user_file_count` among those of
the users, and the public set and the name hash are keys among the tokens
of the users. `user_register` takes any name that is free, so nothing but
the name keeps a user's work off these three.
-/

namespace HfDfs

set_option autoImplicit false

open Procedures Tallies Zlexcount

structure Reserved where
  counter : Option Int
  publicZset : Option RedisValue
  nameHash : Option RedisValue

/-- The counter row and the two keys of `redis_keys.h`, each with its type and content. -/
def Store.reserved (s : Store) : Reserved :=
  ⟨s.tables.userFileCount shareCountUser, s.redis FILE_PUBLIC_ZSET, s.redis FILE_NAME_HASH⟩

/-- A login of the user, or work of the user on a file that nobody shares. -/
def Request.privateTo (user : CString) : Request → Store → Prop
  | .login _ u _ _, _ => u = user
  | .upload _ u filename md5 _ _ _, s | .dealMd5 _ u md5 filename, s
  | .saveFile _ u md5 filename, s | .delFile _ u md5 filename, s =>
    u = user ∧ s.tables.shared md5 filename = false
  | _, _ => False

/-- Under a reserved name a request does not get as far as writing, and a deletion does not
take the file for a shared one. -/
def reservedOk : Request → Store → Prop
  | .login foreign user pwd token, s =>
    user = FILE_PUBLIC_ZSET ∨ user = FILE_NAME_HASH →
      (s.tables.passwordReply (fun _ => false) foreign user).tmp = pwd →
      ∀ value, token = some value → s.redis user = some (.string value)
  | .upload _ user _ md5 _ _ _, s => user = shareCountUser → s.tables.fileInfo md5 ≠ none
  | .dealMd5 _ user md5 filename, s | .saveFile _ user md5 filename, s =>
    user = shareCountUser → s.tables.fileInfo md5 ≠ none → s.tables.holds user md5 filename = true
  | .delFile enc user md5 filename, s =>
    (s.delShared enc user md5 filename → s.tables.userFileCount shareCountUser = none) ∧
      (user = shareCountUser → ¬ s.delGoesOn enc user md5 filename)
  | _, _ => True

theorem reserved_eq_iff {s t : Store} : t.reserved = s.reserved ↔
    t.tables.userFileCount shareCountUser = s.tables.userFileCount shareCountUser ∧
    t.redis FILE_PUBLIC_ZSET = s.redis FILE_PUBLIC_ZSET ∧
    t.redis FILE_NAME_HASH = s.redis FILE_NAME_HASH := by
  simp [Store.reserved]

/-- Where Redis is left alone the counter decides. -/
theorem reserved_eq_iff_counter {s t : Store} (h : t.redis = s.redis) :
    t.reserved = s.reserved ↔
      t.tables.userFileCount shareCountUser = s.tables.userFileCount shareCountUser := by
  simp [reserved_eq_iff, h]

/-! ## One request -/

theorem reserved_gain (now user md5 filename : CString) (info : FileInfo) (s : Store)
    (storage : Finset CString) :
    Store.reserved ⟨s.tables.gain now user md5 filename info, s.redis, storage⟩ = s.reserved ↔
      user ≠ shareCountUser := by
  simp [reserved_eq_iff, Tables.gain, raise_eq_iff]

theorem reserved_upload (now user filename md5 : CString) (size : Int)
    (fileid url : CString) (s : Store) :
    ((Request.upload now user filename md5 size fileid url).serve s).reserved = s.reserved ↔
      reservedOk (.upload now user filename md5 size fileid url) s := by
  rw [Request.serve, Request.handler, run_upload, run_storeFileinfoToMysql, reservedOk]
  cases hinfo : s.tables.fileInfo md5 with
  | none => simp [reserved_gain]
  | some info => simp [reserved_eq_iff]

theorem reserved_gained {now user md5 filename : CString} {s t : Store}
    (h : Gained now user md5 filename s t) :
    t.reserved = s.reserved ↔ (user = shareCountUser → s.tables.fileInfo md5 ≠ none →
      s.tables.holds user md5 filename = true) := by
  rcases h with ⟨hnothing, rfl⟩ | ⟨info, hinfo, hholds, rfl⟩
  · refine iff_of_true rfl fun _ hsome => ?_
    exact hnothing.resolve_left hsome
  · simp [reserved_gain, hinfo, hholds]

/-- The shared branch lowers the counter, and nothing later in the deletion raises it again. -/
theorem counter_delFile_shared {enc : Encoding} {user md5 filename : CString} {s : Store}
    (hshared : s.delShared enc user md5 filename)
    (hcounter : s.tables.userFileCount shareCountUser ≠ none) :
    ((delFile enc user md5 filename).run store s).2.tables.userFileCount shareCountUser ≠
      s.tables.userFileCount shareCountUser := by
  obtain ⟨n, hn⟩ := Option.ne_none_iff_exists'.mp hcounter
  have hlower : lowerCounter s.tables.userFileCount shareCountUser = some (n - 1) := by
    rw [lowerCounter_self, hn, Option.map_some]
  intro h
  rw [userFileCount_delFile, if_pos hshared, hn] at h
  dsimp only at h
  split at h
  · by_cases huser : user = shareCountUser
    · subst huser
      have hself := getD_lower_self (t := lowerCounter s.tables.userFileCount) (k := shareCountUser)
        (by rw [hlower]; exact Option.some_ne_none _)
      rw [h, hlower, Option.getD_some, Option.getD_some] at hself
      omega
    · rw [lower_of_ne _ (Ne.symm huser), hlower, Option.some.injEq] at h
      omega
  · rw [hlower, Option.some.injEq] at h
    omega

theorem reserved_delFile (enc : Encoding) (user md5 filename : CString) (s : Store) :
    ((Request.delFile enc user md5 filename).serve s).reserved = s.reserved ↔
      reservedOk (.delFile enc user md5 filename) s := by
  have hredis := redis_delFile user md5 filename s enc
  have hcounts := userFileCount_delFile user md5 filename s enc
  rw [Request.serve, Request.handler, reservedOk]
  by_cases hlow : s.delShared enc user md5 filename ∧
      s.tables.userFileCount shareCountUser ≠ none
  · refine iff_of_false (fun h => ?_) (fun h => hlow.2 (h.1 hlow.1))
    exact counter_delFile_shared hlow.1 hlow.2 (reserved_eq_iff.mp h).1
  · -- neither Redis nor, before the user's own count, the counter is touched
    have hsame : ((delFile enc user md5 filename).run store s).2.redis = s.redis := by
      rw [hredis, if_neg]
      exact fun h => hlow ⟨Or.inl h.1, h.2⟩
    have hfirst : s.delShared enc user md5 filename →
        s.tables.userFileCount shareCountUser = none :=
      fun hshared => by_contra fun hne => hlow ⟨hshared, hne⟩
    have hcounter : (if s.delShared enc user md5 filename then lowerCounter s.tables.userFileCount
        else s.tables.userFileCount) = s.tables.userFileCount := by
      split
      · rename_i hshared
        exact lowerCounter_of_none (hfirst hshared)
      · rfl
    rw [reserved_eq_iff_counter hsame, hcounts, hcounter, and_iff_right hfirst]
    by_cases hgoes : s.delGoesOn enc user md5 filename
    · simp [hgoes, lower_eq_iff hgoes.2]
    · simp [hgoes]

/-- A login that is defined writes its token if the password is right. -/
theorem redis_login {foreign : ResultOne} {user pwd : CString} {token : Option CString} {s : Store}
    (h : (Request.login foreign user pwd token).admissible s) :
    ((Request.login foreign user pwd token).serve s).tables = s.tables ∧
    ((Request.login foreign user pwd token).serve s).redis =
      if (s.tables.passwordReply (fun _ => false) foreign user).tmp = pwd then
        token.elim s.redis fun value => Function.update s.redis user (some (.string value))
      else s.redis := by
  rw [Request.admissible, ← Procedure.runFaulty_no_faults store 0, runFaulty_login,
    if_neg Bool.false_ne_true] at h
  simp only [Request.serve, Request.handler, Procedure.run_bind, Procedure.pure_eq,
    Procedure.run_done]
  rw [← Procedure.runFaulty_no_faults store 0, runFaulty_login, if_neg Bool.false_ne_true]
  split at h
  · exact absurd rfl h
  · rename_i hfits
    rw [if_neg hfits]
    by_cases hpwd : (s.tables.passwordReply (fun _ => false) foreign user).tmp = pwd
    · cases token <;> simp [hpwd]
    · simp [hpwd]

theorem update_eq_iff (r : Redis) (user key : CString) (value : RedisValue) :
    Function.update r user (some value) key = r key ↔ (user = key → r user = some value) := by
  by_cases huser : user = key
  · subst huser
    simp [eq_comm]
  · simp [huser, Ne.symm huser]

theorem reserved_login {foreign : ResultOne} {user pwd : CString} {token : Option CString}
    {s : Store} (h : (Request.login foreign user pwd token).admissible s) :
    ((Request.login foreign user pwd token).serve s).reserved = s.reserved ↔
      reservedOk (.login foreign user pwd token) s := by
  obtain ⟨htables, hredis⟩ := redis_login h
  rw [reserved_eq_iff, htables, hredis, and_iff_right rfl, reservedOk]
  by_cases hpwd : (s.tables.passwordReply (fun _ => false) foreign user).tmp = pwd
  · cases token with
    | none => simp [hpwd]
    | some value => simp [hpwd, update_eq_iff, or_imp]
  · simp [hpwd]

/-- A request of the user leaves the reserved places alone exactly when it meets the condition. -/
theorem reserved_serve {user : CString} {r : Request} {s : Store} (hr : r.privateTo user s)
    (h : r.admissible s) : (r.serve s).reserved = s.reserved ↔ reservedOk r s := by
  cases r with
  | upload now user filename md5 size fileid url =>
    exact reserved_upload now user filename md5 size fileid url s
  | dealMd5 now user md5 filename => exact reserved_gained (gained_dealMd5 now user md5 filename s)
  | saveFile now user md5 filename => exact reserved_gained (gained_saveFile now user md5 filename s)
  | delFile enc user md5 filename => exact reserved_delFile enc user md5 filename s
  | login foreign user pwd token => exact reserved_login h
  | _ => exact hr.elim

/-! ## Runs -/

/-- Whoever the user is and whatever the store: along every run of their logins and their work
on unshared files, all meeting the condition, the reserved places are as they were, and the next
such request leaves them so exactly when it meets the condition too. -/
theorem reserved_of_runs (user : CString) (s : Store) {requests : List Request}
    (h : Runs (fun r t => r.privateTo user t ∧ reservedOk r t) s requests) :
    (serveAll s requests).reserved = s.reserved ∧
      ∀ r : Request, r.privateTo user (serveAll s requests) →
        r.admissible (serveAll s requests) →
        ((r.serve (serveAll s requests)).reserved = s.reserved ↔
          reservedOk r (serveAll s requests)) := by
  have hsame : (serveAll s requests).reserved = s.reserved := by
    refine Runs.invariant (I := fun t => t.reserved = s.reserved) ?_ rfl h
    rintro r t ht hadmissible ⟨hprivate, hok⟩
    rw [← ht]
    exact (reserved_serve hprivate hadmissible).mpr hok
  refine ⟨hsame, fun r hprivate hadmissible => ?_⟩
  rw [← hsame]
  exact reserved_serve hprivate hadmissible

/-- The store once a user of that name has registered with the password `p`. -/
def registered (user : CString) : Store :=
  (Request.userRegister (bytes "t") user (bytes "n") (bytes "p") [] []).serve Store.empty

theorem reserved_login_upload_delete :
    (serveAll (registered (bytes "mike"))
      [.login .noRow (bytes "mike") (bytes "p") (some (bytes "token")),
        .upload (bytes "t") (bytes "mike") (bytes "f") (bytes "m") 1 (bytes "id") (bytes "url"),
        .delFile .ziplist (bytes "mike") (bytes "m") (bytes "f")]).reserved =
      (registered (bytes "mike")).reserved := by
  refine (reserved_of_runs (bytes "mike") _ ?_).1
  refine ⟨by rw [Request.admissible]; decide, ⟨rfl, ?_⟩, Finset.notMem_empty _,
    ⟨⟨rfl, rfl⟩, ?_⟩, trivial, ⟨⟨rfl, by decide⟩, ?_⟩, trivial⟩
  · intro hname
    exact absurd hname (by decide)
  · intro hname
    exact absurd hname (by decide)
  · exact ⟨by decide, by decide⟩

/-- A user registers under the name of the public set and logs in: the key becomes a string. -/
theorem not_reserved_public_zset :
    ((userRegister (bytes "t") FILE_PUBLIC_ZSET (bytes "n") (bytes "p") [] []).run store
      Store.empty).1 = 0 ∧
    Runs (Request.privateTo FILE_PUBLIC_ZSET) (registered FILE_PUBLIC_ZSET)
      [.login .noRow FILE_PUBLIC_ZSET (bytes "p") (some (bytes "token"))] ∧
    (serveAll (registered FILE_PUBLIC_ZSET)
      [.login .noRow FILE_PUBLIC_ZSET (bytes "p") (some (bytes "token"))]).reserved ≠
      (registered FILE_PUBLIC_ZSET).reserved := by
  refine ⟨by decide, ⟨by rw [Request.admissible]; decide, rfl, trivial⟩, fun h => ?_⟩
  have hkey := congrArg (fun reserved => reserved.publicZset.isSome) h
  revert hkey
  decide

end HfDfs
