import Formula.Value.Substitution

/-!
# Catalogs

The names that notation knows: functions, constants, and symbols of several letters. Entries keep the order
in which their names were first inserted, and a name inserted again keeps its place.
-/

namespace Formula

structure Catalog where
  functions : List Function := []
  constants : List (String × Value) := []
  symbols : List String := []
deriving Inhabited

namespace Catalog

def empty : Catalog := {}

/-- Puts an entry in the place of the first one with the same key, or at the end. -/
def upsert {α : Type} (key : α → String) (entry : α) : List α → List α
  | [] => [entry]
  | e :: es => if key e = key entry then entry :: es else e :: upsert key entry es

def function? (c : Catalog) (name : String) : Option Function :=
  c.functions.find? (·.name == name)

def constant? (c : Catalog) (name : String) : Option Value :=
  (c.constants.find? (·.1 == name)).map (·.2)

def isSymbol (c : Catalog) (name : String) : Bool :=
  c.symbols.contains name

def insertFunction (c : Catalog) (f : Function) : Catalog :=
  { c with functions := upsert Callable.name f c.functions }

def insertConstant (c : Catalog) (name : String) (value : Value) : Catalog :=
  { c with constants := upsert Prod.fst (name, value) c.constants }

def insertSymbol (c : Catalog) (name : String) : Catalog :=
  { c with symbols := upsert id name c.symbols }

/-- The constants that are known from the start. -/
def builtinConstants : List (String × Value) :=
  let tau := Value.mul (.int 2) (.constant .pi)
  [("e", .constant .e), ("i", .constant .i), ("pi", .constant .pi), ("π", .constant .pi),
    ("tau", tau), ("τ", tau), ("phi", .constant .goldenRatio), ("φ", .constant .goldenRatio),
    ("inf", .constant .infinity)]

/-- The builtin functions and constants. -/
def builtin : Catalog where
  functions := Builtin.all.map fun b => .builtin b.name b.least b.most
  constants := builtinConstants

/-- The names of Greek letters, each accepted as one symbol. -/
def greekNames : List String :=
  ["alpha", "beta", "gamma", "delta", "epsilon", "zeta", "eta", "theta", "iota", "kappa", "lambda",
    "mu", "nu", "xi", "omicron", "pi", "rho", "sigma", "tau", "upsilon", "phi", "chi", "psi", "omega"]

def isGreekName (name : String) : Bool := greekNames.contains name

/-! ## Looking up what was inserted -/

theorem find?_upsert_self {α : Type} (key : α → String) (entry : α) (es : List α) :
    (upsert key entry es).find? (key · == key entry) = some entry := by
  induction es with
  | nil => simp [upsert]
  | cons e es ih =>
    simp only [upsert]
    split <;> simp_all

theorem find?_upsert_of_ne {α : Type} (key : α → String) (entry : α) (es : List α) {name : String}
    (h : key entry ≠ name) :
    (upsert key entry es).find? (key · == name) = es.find? (key · == name) := by
  induction es with
  | nil => simp [upsert, h]
  | cons e es ih =>
    simp only [upsert]
    split <;> simp_all [List.find?_cons]

end Catalog

end Formula
