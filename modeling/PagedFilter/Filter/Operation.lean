import PagedFilter.Filter.Basic
namespace PagedFilter

inductive Operation
  | set (key : ByteArray)
  | test (key : ByteArray)
  | setItem (item : Item)
  | testItem (item : Item)
  | setBatch (keys : List ByteArray)
  | testBatch (keys : List ByteArray)
  | testAll (keys : List ByteArray)
  | testAny (keys : List ByteArray)
  | clear

inductive Answer
  | flag (value : Bool)
  | flags (values : List Bool)
  | count (value : Nat)
  | done
deriving DecidableEq, Repr

namespace KeyFilter
variable {F : Type} [KeyFilter F]

def apply (f : F) : Operation → Except Fault (Answer × F)
  | .set key => return (← set f key).map .flag id
  | .test key => return (.flag (← test f key), f)
  | .setItem item => return (← setItem f item).map .flag id
  | .testItem item => return (.flag (← testItem f item), f)
  | .setBatch keys => return (← setBatch f keys).map .count id
  | .testBatch keys => return (.flags (← testBatch f keys), f)
  | .testAll keys => return (.flag (← testAll f keys), f)
  | .testAny keys => return (.flag (← testAny f keys), f)
  | .clear => return (.done, clear f)

def run (f : F) : List Operation → Except Fault (List Answer × F)
  | [] => return ([], f)
  | op :: ops => do
    let (answer, f) ← apply f op
    let (answers, f) ← run f ops
    return (answer :: answers, f)

end KeyFilter
end PagedFilter
