import HfDfs.Store
import HfDfs.Cgi.Post

/-!
# `register_cgi.c`: a new user
-/

namespace HfDfs

set_option autoImplicit false

open Procedures

/-- The name, nickname, password, telephone number and mail address of `user_register`. -/
def Register.members : List Member :=
  [⟨bytes "userName", 128⟩, ⟨bytes "nickName", 128⟩, ⟨bytes "firstPwd", 128⟩, ⟨bytes "phone", 128⟩,
    ⟨bytes "email", 128⟩]

def getRegInfo : Option Json → Option (Option (List CString)) := decodeTexts Register.members

/-- 0: registered, -1: error, -2: the name is taken. -/
def userRegister (now user nickName pwd tel email : CString) : Handler Int := do
  if !(← msqlConn) then return -1
  let _ ← mysqlQuery .setNames
  -- the line logged with -2 has a `%s` and no string; the call is taken to return
  if (← processResultOneNull (.userAll user)) = .notSaved then return -2
  if !(← mysqlQuery (.insertUser ⟨user, nickName, pwd, tel, now, email⟩)) then return -1
  return 0

def Tables.register (t : Tables) (row : User) : Tables := { t with user := t.user ++ [row] }

theorem run_userRegister (now user nickName pwd tel email : CString) (s : Store) :
    (userRegister now user nickName pwd tel email).run store s =
      if s.tables.user.any (·.name = user) then (-2, s)
      else if s.tables.user.any (·.nickname = nickName) then (-1, s)
      else (0, { s with
        tables := s.tables.register ⟨user, nickName, pwd, tel, now, email⟩ }) := by
  by_cases hname : s.tables.user.any (·.name = user)
  · simp [userRegister, hname]
  · by_cases hnick : s.tables.user.any (·.nickname = nickName)
    · have hdup : s.tables.user.any (fun r => r.name = user || r.nickname = nickName) = true := by
        simp only [List.any_eq_true, Bool.or_eq_true] at hnick ⊢
        obtain ⟨r, hr, h⟩ := hnick
        exact ⟨r, hr, .inr h⟩
      simp [userRegister, hname, hnick, hdup]
    · have hdup : s.tables.user.any (fun r => r.name = user || r.nickname = nickName) = false := by
        simp only [List.any_eq_true, not_exists, not_and, ← Bool.not_eq_true, Bool.or_eq_true]
          at hname hnick ⊢
        rintro r hr (h | h)
        · exact hname r hr h
        · exact hnick r hr h
      simp [userRegister, hname, hnick, hdup, Tables.register]

end HfDfs
