import PagedFilter.Filter.Operation
import PagedFilter.Format.Frame
import PagedFilter.Format.Snapshot
/-! A session applies operations to one filter, changes its form, and saves and restores it. -/
namespace PagedFilter

inductive Form
  | fixed {way : Nat} (filter : FixedFilter way)
  | any (filter : AnyFilter)
  | shared (filter : SharedFilter)

inductive FormKind
  | fixed
  | any
  | shared
deriving DecidableEq

namespace Form

instance : KeyFilter Form where
  set f key := match f with
    | fixed g => return (← KeyFilter.set g key).map id fixed
    | any g => return (← KeyFilter.set g key).map id any
    | shared g => return (← KeyFilter.set g key).map id shared
  test f key := match f with
    | fixed g => KeyFilter.test g key
    | any g => KeyFilter.test g key
    | shared g => KeyFilter.test g key
  clear
    | fixed g => fixed (KeyFilter.clear g)
    | any g => any (KeyFilter.clear g)
    | shared g => shared (KeyFilter.clear g)
  geometry
    | fixed g => KeyFilter.geometry g
    | any g => KeyFilter.geometry g
    | shared g => KeyFilter.geometry g
  uniqueCount
    | fixed g => KeyFilter.uniqueCount g
    | any g => KeyFilter.uniqueCount g
    | shared g => KeyFilter.uniqueCount g
  dataLen
    | fixed g => KeyFilter.dataLen g
    | any g => KeyFilter.dataLen g
    | shared g => KeyFilter.dataLen g
  setBatch f keys := match f with
    | fixed g => return (← KeyFilter.setBatch g keys).map id fixed
    | any g => return (← KeyFilter.setBatch g keys).map id any
    | shared g => return (← KeyFilter.setBatch g keys).map id shared
  testBatch f keys := match f with
    | fixed g => KeyFilter.testBatch g keys
    | any g => KeyFilter.testBatch g keys
    | shared g => KeyFilter.testBatch g keys

def contents : Form → ByteArray × UInt64
  | fixed g => (StoredFilter.data g, KeyFilter.uniqueCount g)
  | any g => (StoredFilter.data g, KeyFilter.uniqueCount g)
  | shared g => g.contents

def create (g : Geometry) : FormKind → Except Failure Form
  | .fixed => return fixed (← FixedFilter.create g.way g.pageLevel g.pageNum)
  | .any => return any (← AnyFilter.create g)
  | .shared => return shared (.ofAny (← AnyFilter.create g))

def ofBytes (way level : Nat) (data : ByteArray) (uniqueCount : UInt64) :
    FormKind → Except Failure Form
  | .fixed => return fixed (← FixedFilter.ofBytes way level data uniqueCount)
  | .any => return any (← AnyFilter.ofBytes way level data uniqueCount)
  | .shared => return shared (← SharedFilter.ofBytes way level data uniqueCount)

/-- The next form: a fixed-way filter as one of any way, that as a shared one, and back. -/
def convert : Form → Except Failure Form
  | @fixed way g =>
    match AnyFilter.ofFixed? g with
    | some f => return any f
    | none => refuse (.invalidWay way)
  | any g => return shared (.ofAny g)
  | shared g => return any g.inner

def frame : Form → ByteArray
  | fixed g => Frame.encode g
  | any g => Frame.encode g
  | shared g => Frame.encode g.inner

def snapshot : Form → Snapshot
  | fixed g => .ofFilter g
  | any g => .ofFilter g
  | shared g => .ofShared g

end Form

inductive SessionStep
  | operate (op : Operation)
  | convert
  | rebuild (kind : FormKind)
  | reframe
  | resnapshot

namespace SessionStep

def apply (f : Form) : SessionStep → Except Failure Form
  | operate op => do
    let (_, f) ← KeyFilter.apply f op
    return f
  | convert => f.convert
  | rebuild kind =>
    let g := KeyFilter.geometry f
    Form.ofBytes g.way g.pageLevel f.contents.1 f.contents.2 kind
  | reframe => return .any (← Frame.decode f.frame)
  | resnapshot => return .any (← f.snapshot.toAny)

def run (f : Form) (steps : List SessionStep) : Except Failure Form :=
  steps.foldlM apply f

end SessionStep

def Operation.keys : Operation → List ByteArray
  | set key => [key]
  | setItem item => [item.key]
  | setBatch keys => keys
  | _ => []

def Operation.items : Operation → List Item
  | setItem item => [item]
  | _ => []

namespace SessionStep
variable {α : Type} (ofOperation : Operation → List α)

/-- What is kept after a step, where `ofOperation` is what an operation records. -/
def keep (kept : List α) : SessionStep → List α
  | operate .clear => []
  | operate op => kept ++ ofOperation op
  | _ => kept

def recorded (steps : List SessionStep) : List α :=
  steps.foldl (keep ofOperation) []

end SessionStep
end PagedFilter
