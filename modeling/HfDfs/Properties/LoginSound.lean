import HfDfs.Cgi.Login
import HfDfs.Properties.Bodies

/-!
# Who is given a token

A login should be accepted only for a row of the user table, and refused
in every other case. Both arrays start out empty and the codes of the
decoder and of the query are dropped, so an empty password also matches a
row that was never found. The theorem below says for which requests, tables
and failures the program keeps to the rule.
-/

namespace HfDfs

set_option autoImplicit false

open Procedures Procedures.Procedure

/-- The body is an object with the two string members, as `cJSON_GetObjectItem` finds them. -/
def Named (root : Option Json) (user pwd : CString) : Prop :=
  ∃ object item1 item2, root = some object ∧
    object.getObjectItem (bytes "user") = some item1 ∧ item1.valuestring = some user ∧
    object.getObjectItem (bytes "pwd") = some item2 ∧ item2.valuestring = some pwd

def Tables.HasUser (t : Tables) (user pwd : CString) : Prop :=
  ∃ row ∈ t.user, row.name = user ∧ row.password = pwd

def LoginSound (root : Option Json) (s : Store) (outcome : LoginAnswer × Store) : Prop :=
  (∃ user pwd token, Named root user pwd ∧ s.tables.HasUser user pwd ∧
    outcome = (.status (bytes "000") token,
      { s with redis := Function.update s.redis user (some (.string token)) })) ∨
  outcome = (.status (bytes "001") (bytes "fail"), s)

/-- The row the password query brings, if it brings one. -/
def Tables.delivered (t : Tables) (faults : Nat → Bool) (user : CString) : Option User :=
  if faults 2 then none else t.user.find? (·.name = user)

/-- The comparison succeeds only when the decoder found both members and the table has
that name with that password. Without a row the password is compared with the empty
string. -/
def Proves (ret : Int) (t : Tables) (faults : Nat → Bool) (foreign : ResultOne)
    (user pwd : CString) : Prop :=
  if sqlPlain user then
    match t.delivered faults user with
    | some row => row.password = pwd → ret = 0
    | none => pwd = [] → ret = 0 ∧ t.HasUser user pwd
  else foreign.tmp = pwd → ret = 0 ∧ t.HasUser user pwd

/-- The request is read and decoded within the arrays. It is then refused by a server
that cannot be reached, or the texts fit their arrays and the comparison decides. -/
def loginOk (faults : Nat → Bool) (foreign : ResultOne) (token : Option CString)
    (r : HttpRequest) (s : Store) : Prop :=
  ∃ root ret user pwd, r.read = .text root ∧ getLoginInfo root [] [] = some (ret, user, pwd) ∧
    (faults 0 = true ∨
      user.length + passwordQueryLength < 512 ∧
      (s.tables.passwordReply faults foreign user).tmp.length < 256 ∧
      (faults 3 = true ∨ token = none ∨ Proves ret s.tables faults foreign user pwd))

section

variable {t : Tables} {faults : Nat → Bool} {foreign : ResultOne} {user pwd : CString}

theorem passwordReply_plain (h : sqlPlain user = true) :
    (t.passwordReply faults foreign user).tmp =
      match t.delivered faults user with
      | some row => row.password
      | none => [] := by
  cases h2 : faults 2 with
  | true => simp [Tables.passwordReply, Tables.delivered, ResultOne.tmp, h, h2]
  | false =>
    cases hrow : t.user.find? (·.name = user) with
    | none => simp [Tables.passwordReply, Tables.delivered, ResultOne.tmp, h, h2, hrow]
    | some row => simp [Tables.passwordReply, Tables.delivered, ResultOne.tmp, h, h2, hrow]

theorem hasUser_of_delivered {row : User} (h : t.delivered faults user = some row) :
    t.HasUser user row.password := by
  cases h2 : faults 2 with
  | true => simp [Tables.delivered, h2] at h
  | false =>
    have hfind : t.user.find? (·.name = user) = some row := by simpa [Tables.delivered, h2] using h
    have hname := List.find?_some hfind
    exact ⟨row, List.mem_of_find?_eq_some hfind, by simpa using hname, rfl⟩

theorem proves_iff {ret : Int} :
    Proves ret t faults foreign user pwd ↔
      ((t.passwordReply faults foreign user).tmp = pwd → ret = 0 ∧ t.HasUser user pwd) := by
  cases hplain : sqlPlain user with
  | false => simp [Proves, Tables.passwordReply, hplain]
  | true =>
    rw [passwordReply_plain hplain, Proves, if_pos hplain]
    cases hrow : t.delivered faults user with
    | none => exact imp_congr_left eq_comm
    | some row =>
      refine imp_congr_right fun hpwd => (and_iff_left ?_).symm
      exact hpwd ▸ hasUser_of_delivered hrow

end

section

variable {root : Option Json} {s : Store} {ret : Int} {user pwd : CString}

/-- The decoder returns 0 exactly when both members are there, and then delivers them. -/
theorem named_iff (h : getLoginInfo root [] [] = some (ret, user, pwd)) {user' pwd' : CString} :
    Named root user' pwd' ↔ ret = 0 ∧ user' = user ∧ pwd' = pwd := by
  cases root with
  | none =>
    obtain ⟨rfl, -, -⟩ : -1 = ret ∧ [] = user ∧ [] = pwd := by simpa [getLoginInfo] using h
    simp [Named]
  | some object =>
    cases h1 : object.getObjectItem (bytes "user") with
    | none =>
      obtain ⟨rfl, -, -⟩ : -1 = ret ∧ [] = user ∧ [] = pwd := by simpa [getLoginInfo, h1] using h
      simp [Named, h1]
    | some child1 =>
      cases h2 : object.getObjectItem (bytes "pwd") with
      | none =>
        obtain ⟨-, rfl, -⟩ : strcpy 512 child1.valuestring = some user ∧ -1 = ret ∧ [] = pwd := by
          simpa [getLoginInfo, h1, h2, Option.bind_eq_some_iff] using h
        simp [Named, h1, h2]
      | some child2 =>
        obtain ⟨rfl, huser, hpwd⟩ : 0 = ret ∧ strcpy 512 child1.valuestring = some user ∧
            strcpy 512 child2.valuestring = some pwd := by
          simpa [getLoginInfo, h1, h2, Option.bind_eq_some_iff, and_left_comm] using h
        simp [Named, h1, h2, (strcpy_eq_some.mp huser).1, (strcpy_eq_some.mp hpwd).1, eq_comm]

/-- Both outcomes the rule allows are answers with a status. -/
theorem not_loginSound_silent {answer : LoginAnswer} {t : Store}
    (h : ∀ code value, answer ≠ .status code value) : ¬ LoginSound root s (answer, t) := by
  rintro (⟨user, pwd, token, -, -, houtcome⟩ | houtcome)
  · exact h _ _ (congrArg Prod.fst houtcome)
  · exact h _ _ (congrArg Prod.fst houtcome)

theorem loginSound_accepted (h : getLoginInfo root [] [] = some (ret, user, pwd))
    (token : CString) :
    LoginSound root s (.status (bytes "000") token,
      { s with redis := Function.update s.redis user (some (.string token)) }) ↔
    ret = 0 ∧ s.tables.HasUser user pwd := by
  constructor
  · rintro (⟨user', pwd', token', hnamed, huser, -⟩ | hrefused)
    · obtain ⟨hret, rfl, rfl⟩ := (named_iff h).mp hnamed
      exact ⟨hret, huser⟩
    · simp only [Prod.mk.injEq, LoginAnswer.status.injEq] at hrefused
      exact absurd hrefused.1.1 (by decide)
  · rintro ⟨hret, huser⟩
    exact Or.inl ⟨user, pwd, token, (named_iff h).mpr ⟨hret, rfl, rfl⟩, huser, rfl⟩

end

/-- One case for each outcome of the decoded login. -/
theorem loginSound_login {root : Option Json} {ret : Int} {user pwd : CString}
    (h : getLoginInfo root [] [] = some (ret, user, pwd)) (faults : Nat → Bool)
    (foreign : ResultOne) (token : Option CString) (s : Store) :
    LoginSound root s
      (loginStatus token ((login foreign user pwd token).runFaulty store faults 0 s).1,
        ((login foreign user pwd token).runFaulty store faults 0 s).2) ↔
    faults 0 = true ∨
      user.length + passwordQueryLength < 512 ∧
      (s.tables.passwordReply faults foreign user).tmp.length < 256 ∧
      (faults 3 = true ∨ token = none ∨ Proves ret s.tables faults foreign user pwd) := by
  have hrefused : LoginSound root s (loginStatus token (some (-1)), s) := Or.inr rfl
  rw [runFaulty_login, proves_iff]
  cases h0 : faults 0 with
  | true => simpa using hrefused
  | false =>
    rcases Decidable.em (512 ≤ user.length + passwordQueryLength ∨
        256 ≤ (s.tables.passwordReply faults foreign user).tmp.length) with hlong | hfits
    · rw [if_neg Bool.false_ne_true, if_pos hlong]
      refine iff_of_false (not_loginSound_silent (by simp [loginStatus])) ?_
      rintro (hfault | ⟨huser, htmp, -⟩)
      · cases hfault
      · omega
    · rw [if_neg Bool.false_ne_true, if_neg hfits]
      rw [not_or, Nat.not_le, Nat.not_le] at hfits
      simp only [Bool.false_eq_true, false_or, hfits, true_and]
      rcases eq_or_ne (s.tables.passwordReply faults foreign user).tmp pwd with heq | hne
      · rw [if_pos heq]
        cases h3 : faults 3 with
        | true => simpa using hrefused
        | false =>
          cases token with
          | none => simpa using hrefused
          | some value => simpa [heq, loginStatus] using loginSound_accepted h value
      · rw [if_neg hne]
        simpa [hne] using hrefused

theorem loginSound_iff (faults : Nat → Bool) (foreign : ResultOne) (token : Option CString)
    (r : HttpRequest) (s : Store) :
    LoginSound r.json s ((loginMain foreign token r).runFaulty store faults 0 s) ↔
      loginOk faults foreign token r s := by
  cases hread : r.read with
  | text root =>
    have hjson : r.json = root := by rw [HttpRequest.json, hread]
    cases hdecode : getLoginInfo root [] [] with
    | none =>
      simpa [loginMain, loginOk, hread, hdecode] using not_loginSound_silent (by simp)
    | some decoded =>
      obtain ⟨ret, user, pwd⟩ := decoded
      simp only [loginMain, hread, hdecode, pure_eq, runFaulty_bind_done]
      rw [hjson, loginSound_login hdecode]
      simp [loginOk, hread, hdecode]
  | noData => simpa [loginMain, loginOk, hread] using not_loginSound_silent (by simp)
  | unread => simpa [loginMain, loginOk, hread] using not_loginSound_silent (by simp)
  | undefined => simpa [loginMain, loginOk, hread] using not_loginSound_silent (by simp)

/-- The user table is empty. -/
theorem not_loginSound_of_malformed_body :
    ¬ LoginSound (malformed []).json Store.empty
      ((loginMain .noRow (some (bytes "t")) (malformed [])).runFaulty store (fun _ => false) 0
        Store.empty) := by
  rw [HttpRequest.json, loginMain, read_malformed]
  rintro (⟨user, pwd, token, ⟨object, item1, item2, hroot, -⟩, -, -⟩ | h)
  · cases hroot
  · exact absurd (congrArg Prod.fst h) (by decide)

end HfDfs
