import HfDfs.Library.Deviation
import HfDfs.Mysql.SqlText
import HfDfs.Store

/-!
# The texts the server is sent

The handlers issue statements; the server gets what `sprintf` has written.
The two agree for a text that fits `sql_cmd`, prints only ints with `%d` and
splits into the letters and the literals of its template. A text that does
not fit is written behind the array, a suffix behind its own, and a count
that is no int has overflowed before it was printed: all are undefined. A
text that splits otherwise is another statement, and what that does is up
to the server.
-/

namespace HfDfs

set_option autoImplicit false

open Procedures Quoting

/-- `SQL_MAX_LEN` -/
def sqlMaxLen : Nat := 512

/-- `SUFFIX_LEN` -/
def suffixLen : Nat := 8

/-- `%d` prints an `int`. -/
def Part.asInt : Part → Part
  | .num n => .num (int32 n)
  | part => part

/-- What `sprintf` writes into `sql_cmd`. -/
def Template.printed (template : Template) : CString := Template.sprintf (template.map Part.asInt)

/-- The server finds the letters of the template, and one literal for each `%s`. -/
def Template.Means (template : Template) : Prop :=
  mysqlLexicon.lex .outside template.sprintf = some (tokens template.segments)

instance (template : Template) : Decidable template.Means :=
  inferInstanceAs (Decidable (_ = _))

def isInt (n : Int) : Prop := -2 ^ 31 ≤ n ∧ n < 2 ^ 31

instance (n : Int) : Decidable (isInt n) := inferInstanceAs (Decidable (_ ∧ _))

def Part.InInt : Part → Prop
  | .num n => isInt n
  | _ => True

instance : (part : Part) → Decidable part.InInt
  | .num n => inferInstanceAs (Decidable (isInt n))
  | .lit _ | .str _ | .dstr _ => .isTrue trivial

namespace Command

def templates : Command → List Template
  | .mysqlQuery statement => statement.templates
  | .processResultOne query _ => query.templates
  | .selectShareFilesByPv => [[.lit "select md5, filename, pv from share_file_list order by pv desc"]]
  | .selectUserFiles order user start count => [order.template user start count]
  | _ => []

def Fits (c : Command) : Prop := ∀ template ∈ c.templates, template.printed.length < sqlMaxLen

def InInt (c : Command) : Prop := ∀ template ∈ c.templates, ∀ part ∈ template, part.InInt

/-- No string disturbs the quotes around it. -/
def Clear (c : Command) : Prop := ∀ template ∈ c.templates, template.Means

/-- The array of the suffix holds it. -/
def SuffixFits : Command → Prop
  | .mysqlQuery (.insertFileInfo _ _ _ _ type _) => type.length < suffixLen
  | _ => True

instance : (c : Command) → Decidable c.SuffixFits
  | .mysqlQuery (.insertFileInfo _ _ _ _ type _) =>
    inferInstanceAs (Decidable (type.length < suffixLen))
  | c => by
    unfold SuffixFits
    split <;> infer_instance

instance (c : Command) : Decidable c.Fits := inferInstanceAs (Decidable (∀ _ ∈ _, _ < _))

instance (c : Command) : Decidable c.InInt := inferInstanceAs (Decidable (∀ _ ∈ _, ∀ _ ∈ _, _))

instance (c : Command) : Decidable c.Clear := inferInstanceAs (Decidable (∀ _ ∈ _, _))

/-- The text is that of its template and nothing overflows. -/
def InOrder (c : Command) : Prop := c.Clear ∧ c.Fits ∧ c.InInt ∧ c.SuffixFits

instance (c : Command) : Decidable c.InOrder := inferInstanceAs (Decidable (_ ∧ _ ∧ _ ∧ _))

end Command

/-- What the server makes of the text of a statement that is not what its template says. -/
abbrev Server := (c : Command) → Tables → Reply c × Tables

def Server.deviation (server : Server) : Deviation Command Reply Store where
  undefined c := !decide (c.Fits ∧ c.InInt ∧ c.SuffixFits)
  foreign c := !decide c.Clear
  exec c s := ((server c s.tables).1, { s with tables := (server c s.tables).2 })

/-- The servers, as they are sent texts. -/
def texts (server : Server) : Semantics Command Reply (Option Store) :=
  store.deviate server.deviation

theorem spares_iff (server : Server) (c : Command) : server.deviation.Spares c ↔ c.InOrder := by
  simp only [Deviation.Spares, Server.deviation, Bool.not_eq_false', decide_eq_true_eq]
  exact and_comm

/-- A handler all of whose texts are in order is run as it is written. -/
theorem run_texts (server : Server) {α : Type} {handler : Handler α} {s : Store}
    (h : handler.IssuesFrom store Command.InOrder s) :
    handler.run (texts server) (some s) = ((handler.run store s).1, some (handler.run store s).2) :=
  Procedure.run_deviate (h.mono fun c => (spares_iff server c).mpr)

end HfDfs
