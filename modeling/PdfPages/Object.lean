import PdfPages.Dict
import PdfPages.Fault
import PdfPages.Number

/-!
# Objects

The values that a document is made of. Two objects are the same when they have the
same shape and content, where the order of a dictionary's entries does not matter and
reals compare as numbers: NaN differs from itself and the two zeros are equal.
-/

namespace PdfPages

/-- A direct object or a reference to an indirect one. -/
inductive Obj where
  | null
  | bool (value : Bool)
  | int (value : Int64)
  | real (value : Float)
  | str (bytes : List UInt8)
  | name (text : String)
  | arr (items : List Obj)
  | dict (entries : Dict Obj)
  | ref (target : Ref)
deriving Inhabited

namespace Obj

/-- What messages call the type of an object. -/
def typeName : Obj → String
  | null => "Null"
  | bool _ => "Boolean"
  | int _ => "Integer"
  | real _ => "Real"
  | str _ => "String"
  | name _ => "Name"
  | arr _ => "Array"
  | dict _ => "Dictionary"
  | ref _ => "Reference"

/-- The fault of finding `o` where `expected` is needed. -/
def unexpected (o : Obj) (expected : String) : Fault := .wrongType expected o.typeName

/-! ## Views: the content of an object of one type -/

def isNull : Obj → Bool
  | null => true
  | _ => false

def int? : Obj → Option Int64
  | int n => some n
  | _ => none

/-- The double that stands for an integer or a real. -/
def number? : Obj → Option Float
  | int n => some (Number.ofInt64 n)
  | real x => some x
  | _ => none

def name? : Obj → Option String
  | name text => some text
  | _ => none

def dict? : Obj → Option (Dict Obj)
  | dict d => some d
  | _ => none

def arr? : Obj → Option (List Obj)
  | arr items => some items
  | _ => none

def ref? : Obj → Option Ref
  | ref r => some r
  | _ => none

/-! ## Demands: the content of an object that must have one type -/

def needDict (o : Obj) : Except Fault (Dict Obj) :=
  o.dict?.elim (.error (o.unexpected "Dictionary")) .ok

def needArr (o : Obj) : Except Fault (List Obj) :=
  o.arr?.elim (.error (o.unexpected "Array")) .ok

def needRef (o : Obj) : Except Fault Ref :=
  o.ref?.elim (.error (o.unexpected "Reference")) .ok

def needNumber (o : Obj) : Except Fault Float :=
  o.number?.elim (.error (o.unexpected "Number")) .ok

/-- An integer, or a real with its fraction dropped. -/
def needWhole : Obj → Except Fault Int64
  | int n => .ok n
  | real x => (Number.truncate? x).elim (.error ((real x).unexpected "Number")) .ok
  | o => .error (o.unexpected "Number")

/-! ## Sameness -/

mutual

/-- Whether two objects are the same. -/
def same : Obj → Obj → Bool
  | null, null => true
  | bool a, bool b => a == b
  | int a, int b => a == b
  | real a, real b => a == b
  | str a, str b => a == b
  | name a, name b => a == b
  | arr as, arr bs => sameItems as bs
  | dict ⟨es⟩, dict d => es.length == d.size && sameEntries es d
  | ref a, ref b => a == b
  | _, _ => false

/-- Whether two lists hold the same objects in the same order. -/
def sameItems : List Obj → List Obj → Bool
  | [], [] => true
  | a :: as, b :: bs => same a b && sameItems as bs
  | _, _ => false

/-- Whether `d` has the same object under the key of every entry. -/
def sameEntries : List (String × Obj) → Dict Obj → Bool
  | [], _ => true
  | (key, a) :: rest, d => (d.get? key).any (same a) && sameEntries rest d

end

instance : BEq Obj := ⟨same⟩

end Obj

end PdfPages
