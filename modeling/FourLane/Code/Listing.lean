import FourLane.Code.Basic

/-!
# The text of code

A routine is listed with its signature, the signatures and numbers of what it imports,
and its instructions in order. Constants are written exactly, in hexadecimal.
-/
namespace FourLane

def hexText (n : Nat) : String := String.ofList (Nat.toDigits 16 n)

def hexPadded (width n : Nat) : String :=
  let ds := Nat.toDigits 16 n
  String.ofList (List.replicate (width - ds.length) '0' ++ ds)

/-- A constant with its 23 fraction bits left-aligned in six hexadecimal digits. A NaN
shows its fraction bits other than the quiet one. -/
def Lane.literal (x : Lane) : String :=
  let exponent : Nat := x.magnitude.val / 2 ^ (23 : Nat)
  let fraction : Nat := x.magnitude.val % 2 ^ (23 : Nat)
  let minus := if x.negative then "-" else ""
  let sign := if x.negative then "-" else "+"
  if exponent = 0 then
    if fraction = 0 then minus ++ "0.0"
    else s!"{minus}0x0.{hexPadded 6 (2 * fraction)}p-126"
  else if exponent = 255 then
    let payload := fraction % 2 ^ (22 : Nat)
    if fraction = 0 then sign ++ "Inf"
    else if fraction < 2 ^ (22 : Nat) then s!"{sign}sNaN:0x{hexText payload}"
    else if payload = 0 then sign ++ "NaN"
    else s!"{sign}NaN:0x{hexText payload}"
  else
    let power : Int := exponent - 127
    s!"{minus}0x1.{hexPadded 6 (2 * fraction)}p{power}"

def Ty.text : Ty → String
  | .f32 => "f32"
  | .f32x4 => "f32x4"
  | .i64 => "i64"

def commaSeparated (items : List String) : String := String.intercalate ", " items

def Signature.text (s : Signature) : String :=
  let params := commaSeparated (s.params.map Ty.text)
  let result := match s.result with
    | some ty => s!" -> {ty.text}"
    | none => ""
  s!"({params}){result} system_v"

def Arithmetic.text : Arithmetic → String
  | .add => "fadd"
  | .sub => "fsub"
  | .mul => "fmul"
  | .div => "fdiv"

namespace Routine

def entryCount (r : Routine) : Nat := r.signature.params.length

def constant? (r : Routine) (n : Nat) : Option Lane :=
  if n < r.entryCount then none
  else
    match r.code[n - r.entryCount]? with
    | some (.const x) => some x
    | _ => none

/-- An instruction that uses a constant repeats it in a comment. -/
def instrText (r : Routine) : Instr → String
  | .load a => s!"load.f32x4 v{a}"
  | .const x => s!"f32const {x.literal}"
  | .splat x =>
    match r.constant? x with
    | some c => s!"splat.f32x4 v{x}  ; v{x} = {c.literal}"
    | none => s!"splat.f32x4 v{x}"
  | .arith op left right => s!"{op.text} v{left}, v{right}"
  | .sqrt v => s!"sqrt v{v}"
  | .extract v lane => s!"extractlane v{v}, {lane.val}"
  | .insert v x lane => s!"insertlane v{v}, v{x}, {lane.val}"
  | .call callee args =>
    let args := commaSeparated (args.map fun a => s!"v{a}")
    s!"call fn{callee}({args})"

def exitLines : Exit → List String
  | .ret v => [s!"    return v{v}"]
  | .store v a => [s!"    store v{v}, v{a}", "    return"]

def importLines (r : Routine) : List String :=
  if r.imports.isEmpty then []
  else
    let imports := r.imports.toList.zipIdx
    imports.map (fun (i, k) => s!"    sig{k} = {i.signature.text}") ++
      imports.map (fun (i, k) => s!"    fn{k} = u0:{i.target} sig{k}") ++ [""]

def blockLine (r : Routine) : String :=
  match r.signature.params.zipIdx.map fun (ty, k) => s!"v{k}: {ty.text}" with
  | [] => "block0:"
  | params => s!"block0({commaSeparated params}):"

def codeLines (r : Routine) : List String :=
  r.code.toList.zipIdx.map fun (instr, k) => s!"    v{r.entryCount + k} = {r.instrText instr}"

def lines (r : Routine) : List String :=
  s!"function u0:{r.number}{r.signature.text} \x7b" ::
    (r.importLines ++ r.blockLine :: (r.codeLines ++ exitLines r.exit ++ ["\x7d"]))

end Routine

end FourLane
