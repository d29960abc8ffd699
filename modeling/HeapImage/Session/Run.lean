import HeapImage.Disk.World
import HeapImage.Heap.Display
import HeapImage.Heap.Equality
import HeapImage.Log
import HeapImage.Session.Step
import HeapImage.Storage

/-!
# Running sessions

A session goes through its steps one after the other. A step that fails leaves all names as they
were, and the steps after it are still run.
-/

namespace HeapImage
set_option autoImplicit false

structure HeldWriter where
  writer : Writer
  initialCapacity : Nat

structure HeldRegion where
  region : Region (World → World)
  releases : Option Nat

structure Session where
  heap : Heap := .empty
  values : Table Value := {}
  writers : Table HeldWriter := {}
  regions : Table HeldRegion := {}
  world : World := {}
  /-- The messages since the log was last taken, the latest first. -/
  log : List LogEvent := []

/-- A step may fail; it changes the session either way. -/
abbrev SessionM := EStateM Failure Session

def HeldWriter.view (held : HeldWriter) : WriterView where
  size := held.writer.size
  base := held.writer.base
  capacity := if held.writer.size ≤ held.initialCapacity then some held.writer.buffer.capacity
    else none
  stats := held.writer.stats

def HeldRegion.view (held : HeldRegion) : RegionView where
  size := held.region.size
  base := held.region.base
  rootCount := held.region.rootCount
  mapped := held.region.mapped
  releases := held.releases

def HeldRegion.count (held : HeldRegion) (effects : List (World → World)) : HeldRegion :=
  { held with releases := held.releases.map (· + effects.length) }

namespace Session

def emit (event : LogEvent) : SessionM Unit := modify fun s => { s with log := event :: s.log }

def value (name : String) : SessionM Value := do
  match (← get).values.find? name with
  | some v => return v
  | none => throw (.unbound .value name)

def heldWriter (name : String) : SessionM HeldWriter := do
  match (← get).writers.find? name with
  | some held => return held
  | none => throw (.unbound .writer name)

def heldRegion (name : String) : SessionM HeldRegion := do
  match (← get).regions.find? name with
  | some held => return held
  | none => throw (.unbound .region name)

def bindValue (target : Option String) (v : Value) : SessionM Unit :=
  match target with
  | some name => modify fun s => { s with values := s.values.insert name v }
  | none => pure ()

def listing (roots : List Value) : SessionM Listing := return (← get).heap.listing roots

def EvalError.toFailure : EvalError → Failure
  | .unbound name => .unbound .value name
  | .build cause => .build cause

/-- Evaluate an expression; the heap is handed over while that goes on. -/
def eval (e : Expr) : SessionM Value := do
  let result ← modifyGet fun s =>
    let names := s.values
    let h := s.heap
    let s := { s with heap := .empty }
    let (h, result) := e.eval names h
    (result, { s with heap := h })
  match result with
  | .ok v => return v
  | .error e => throw (EvalError.toFailure e)

def kind (v : Value) : SessionM Kind := return (← get).heap.kind v

def change {α : Type} (f : Heap → Except Misuse (Heap × α)) : SessionM α := do
  match f (← get).heap with
  | .ok (h, a) =>
    modify fun s => { s with heap := h }
    return a
  | .error cause => throw (.misuse cause)

/-- Look something up in the heap that its caller may have to rule out. -/
def inspect {α : Type} (f : Heap → Except Misuse α) : SessionM α := do
  match f (← get).heap with
  | .ok a => return a
  | .error cause => throw (.misuse cause)

def settle (operation : Heap → Value → Value → Except Misuse (Heap × Settlement)) (name : String)
    (e : Expr) : SessionM Answer := do
  let v ← value name
  let x ← eval e
  match ← change fun h => operation h v x with
  | .settled => return .settled
  | .handedBack x => return .handedBack (← listing [x])

def answerValue (v? : Option Value) (target : Option String) : SessionM Answer :=
  match v? with
  | some v => do
    bindValue target v
    return .listing (← listing [v])
  | none => return .nothing

def source : ImageSource → SessionM (Bytes × UInt64)
  | .bytes bytes base => return (bytes, base)
  | .writer name => do
    let held ← heldWriter name
    return (held.writer.data, held.writer.base)

def perform (effects : List (World → World)) : SessionM Unit :=
  modify fun s => { s with world := Region.perform effects s.world }

/-- Release a region, which its log shows if there was something left to do. -/
def releaseHeld (held : HeldRegion) : SessionM HeldRegion := do
  let (region, effects) := held.region.release
  unless effects.isEmpty do emit (.releasing held.region.size)
  perform effects
  return { held with region := region }.count effects

/-- Bind a region that was loaded. A region without a name is dropped. -/
def keepRegion (target : Option String) (size : Nat) (releases : Option Nat) :
    Except Corruption (Heap × Region (World → World)) → SessionM Answer
  | .error cause => do
    emit (.rejected size cause)
    throw (.corrupt cause releases)
  | .ok (h, region) => do
    let held : HeldRegion := { region, releases }
    emit (.loaded size region.rootCount region.base.toNat)
    match target with
    | some name =>
      modify fun s => { s with heap := h, regions := s.regions.insert name held }
      return .region held.view
    | none =>
      modify fun s => { s with heap := h }
      discard <| releaseHeld held
      return .region held.view

/-- Load an image into the heap. Nothing in the world needs to be given up with its memory. -/
def loadRegion (target : Option String) (bytes : Bytes) (base : UInt64) (aligned mapped : Bool)
    (releases : Option Nat) : SessionM Answer := do
  let (result, effects) := Region.load (← get).heap bytes base aligned mapped id
  perform effects
  keepRegion target bytes.size (releases.map (· + effects.length)) result

/-- Empty the tables of values and writers, which may refer to objects of a region. -/
def forgetValues : SessionM Unit := modify fun s => { s with values := {}, writers := {} }

def compact (name writerName : String) : SessionM Answer := do
  let root ← value name
  let before ← heldWriter writerName
  let size := before.writer.size
  let stats := before.writer.stats
  let initialCapacity := before.initialCapacity
  emit (.compacting size)
  let result ← modifyGet fun s =>
    match s.writers.find? writerName with
    | none => (.ok (), s)
    | some held =>
      let s := { s with writers := s.writers.erase writerName }
      let (writer, result) := held.writer.compact fingerprint s.heap root
      (result, { s with writers := s.writers.insert writerName { writer, initialCapacity } })
  let after ← heldWriter writerName
  match result with
  | .ok () =>
    emit (.compacted size after.writer.size stats after.writer.stats)
    return .written after.view
  | .error cause =>
    emit (.undone cause)
    throw (.obstacle cause after.view)

def liftFile {α : Type} (result : Except FileError α) : SessionM α :=
  match result with
  | .ok a => return a
  | .error cause => throw (.file cause)

/-- The calls of the world; each read delivers all that it can. -/
def system : SystemCalls World Handle Nat := World.calls .full

def call {α : Type} (f : World → α × World) : SessionM α :=
  modifyGet fun s =>
    let (a, world) := f s.world
    (a, { s with world := world })

def openPath (path : String) (access : Access) : SessionM Handle := do
  liftFile (← call (system.openPath path access))

/-- A copy of what is mapped, which is unmapped at once. -/
def takeMapped (image : MappedImage Nat) : SessionM Bytes :=
  call fun world =>
    (system.memory image.memory image.size world,
      (system.unmap image.memory image.size world).2)

def step : Step → SessionM Answer
  | .bind target e => do
    let v ← eval e
    bindValue target v
    return .kind (← kind v)
  | .chain target start count link => do
    let v ← eval start
    let v ← modifyGet fun s =>
      let h := s.heap
      let s := { s with heap := .empty }
      let (h, v) := h.chain link 0 v count
      (v, { s with heap := h })
    bindValue target v
    return .kind (← kind v)
  | .forget name => do
    let wasBound := (← get).values.contains name
    modify fun s => { s with values := s.values.erase name }
    return .dropped wasBound
  | .list names => do
    let roots ← names.mapM value
    return .listing (← listing roots)
  | .kindOf name => do
    let v ← value name
    let h := (← get).heap
    return .kindOf (h.kind v) (h.isCompacted v)
  | .display name => do
    let v ← value name
    return .display (v.payload?.map Value.wordText) ((← get).heap.shown? v)
  | .child name index target => do
    let v ← value name
    answerValue ((← get).heap.child? v index) target
  | .identical left right => do
    let a ← value left
    let b ← value right
    return .equal (a == b)
  | .equal left right => do
    let a ← value left
    let b ← value right
    return .equal ((← get).heap.structurallyEqual a b)
  | .setField name e index target => do
    let v ← value name
    let x ← eval e
    let old ← change fun h => h.setField v index x
    answerValue (some old) target
  | .force name e => settle Heap.force name e
  | .resolveTask name e => settle Heap.resolveTask name e
  | .resolvePromise name e => settle Heap.resolvePromise name e
  | .closure name target => do
    let v ← value name
    answerValue (← inspect fun h => h.closure? v) target
  | .getRef name target => do
    let v ← value name
    let contents ← inspect fun h => h.getRef v
    answerValue (some contents) target
  | .setRef name e target => do
    let v ← value name
    let x ← eval e
    match (← get).heap.setRef v x with
    | .ok (h, old) =>
      modify fun s => { s with heap := h }
      answerValue (some old) target
    | .error (.misuse cause) => throw (.misuse cause)
    | .error (.frozen x) => throw (.frozen (← listing [x]))
  | .newWriter target config => do
    match Writer.create? config with
    | .error cause => throw (.misuse cause)
    | .ok writer =>
      let held : HeldWriter := ⟨writer, writer.buffer.capacity⟩
      modify fun s => { s with writers := s.writers.insert target held }
      return .writer config.shown held.view
  | .compact name writer => compact name writer
  | .data writer => do
    let held ← heldWriter writer
    return .bytes held.writer.data.excerpt
  | .load target src => do
    let (bytes, base) ← source src
    loadRegion target bytes base true false none
  | .loadAt target src shift mapped => do
    let (bytes, base) ← source src
    loadRegion target bytes base (shift % 8 == 0) mapped (some 0)
  | .read name target => do
    let held ← heldRegion name
    let (region, root) := held.region.read
    modify fun s => { s with regions := s.regions.insert name { held with region := region } }
    answerValue root target
  | .region name => do
    let held ← heldRegion name
    return .region held.view
  | .release name => do
    let held ← heldRegion name
    forgetValues
    let held ← releaseHeld held
    modify fun s => { s with regions := s.regions.insert name held }
    return .region held.view
  | .dropRegion name => do
    let held ← heldRegion name
    forgetValues
    let held ← releaseHeld held
    modify fun s => { s with regions := s.regions.erase name }
    return .releases held.releases
  | .save path writer => do
    let held ← heldWriter writer
    emit (.saving held.writer.size)
    liftFile (← call (system.save path held.writer))
    return .done
  | .storeFile path bytes => do
    liftFile (← call (system.writeFile path bytes))
    return .done
  | .fetchFile path => do
    let bytes ← liftFile (system.readFile path (← get).world)
    return .bytes bytes.excerpt
  | .mapFile target path => do
    let h := (← get).heap
    match ← call (Region.tryFile system h path #[]) with
    | .error (.corrupt cause) => throw (.corrupt cause none)
    | .error (.file cause) => throw (.file cause)
    | .ok (image, result) => keepRegion target image.size none result
  | .readAt path offset length exact readable => do
    let file ← openPath path (if readable then .read else .write)
    if sizeLimit < length then throw (.misuse .capacityOverflow)
    let world := (← get).world
    let bytes ← liftFile <|
      if exact then system.readExact file world offset length
      else system.readAt file world 0 offset length
    let size ← liftFile (system.fileSize file world)
    return .readAt size bytes
  | .mapPages path offset length => do
    let file ← openPath path .read
    let request := { hint := 0, length, writable := true, ownCopy := true, offset }
    let memory ← liftFile (← call (system.map file request))
    return .pages (← takeMapped ⟨memory, length, 0⟩)
  | .takeLog => do
    let events := (← get).log
    modify fun s => { s with log := [] }
    return .log (events.reverse.map LogEvent.line)

def run (s : Session) : List Step → List (Except Failure Answer)
  | [] => []
  | first :: rest =>
    match (step first).run s with
    | .ok answer s => .ok answer :: s.run rest
    | .error failure s => .error failure :: s.run rest

/-- All roots of an image, read into an empty heap. -/
def loadGraph (bytes : Bytes) (base : UInt64) : Except Failure (RegionView × Listing) :=
  match (Region.load .empty bytes base true false id).1 with
  | .error cause => .error (.corrupt cause none)
  | .ok (h, region) =>
    .ok (({ region, releases := none : HeldRegion }).view, h.listing region.roots.toList)

end Session
end HeapImage
