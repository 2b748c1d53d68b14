import Mathlib.Data.List.Basic
import Mathlib.Tactic

/-!
# Reply objects

The read tasks of `read.h`, the table of object functions a reader calls, and
the default table of `hiredis.c`, which builds `redisReply` objects in a store.
Addresses count the objects ever created; an object remembers how often it was
freed, so that a double free can be stated.
-/

namespace MuxHiredis

/-- `REDIS_REPLY_*`. -/
inductive ReplyType where
  | string | array | integer | nil | status | error
  deriving DecidableEq, Repr

/-- The number behind the constant, which stands for the object when a reader
has no object functions. -/
def ReplyType.code : ReplyType → ℕ
  | string => 1
  | array => 2
  | integer => 3
  | nil => 4
  | status => 5
  | error => 6

/-- An object pointer other than `NULL`. -/
abbrev Obj := ℕ

/-- `type` is `none` for the `-1` of an item whose type byte was not read yet;
`parent` is the index of the parent task in the stack. -/
structure RedisReadTask where
  type : Option ReplyType
  elements : ℤ
  idx : ℤ
  obj : Option Obj
  parent : Option ℕ
  deriving DecidableEq, Repr

/-- `redisReplyObjectFunctions`, over a store of objects.  A function receives
its task and the task that `task->parent` points to.  Any entry may be `NULL`. -/
structure RedisReplyObjectFunctions (σ : Type) where
  createString : Option (RedisReadTask → Option RedisReadTask → List UInt8 → σ → Option Obj × σ)
  createArray : Option (RedisReadTask → Option RedisReadTask → ℤ → σ → Option Obj × σ)
  createInteger : Option (RedisReadTask → Option RedisReadTask → ℤ → σ → Option Obj × σ)
  createNil : Option (RedisReadTask → Option RedisReadTask → σ → Option Obj × σ)
  freeObject : Option (Obj → σ → σ)

/-- A reader without object functions. -/
def RedisReplyObjectFunctions.null {σ : Type} : RedisReplyObjectFunctions σ :=
  ⟨none, none, none, none, none⟩

/-- `elements` is a `size_t`, `str` the allocated bytes with their final `NUL`. -/
structure RedisReply where
  type : ReplyType
  integer : ℤ
  len : ℕ
  str : Option (List UInt8)
  elements : ℕ
  element : Option (List (Option Obj))
  deriving DecidableEq, Repr

structure Cell where
  reply : RedisReply
  frees : ℕ
  deriving DecidableEq, Repr

/-- The store of reply objects.  `fault` is raised by an access outside an
object; `oom` says which create call, counted from the first, runs out of
memory. -/
structure Heap where
  cells : List Cell
  fault : Bool
  calls : ℕ
  oom : ℕ → Bool

def Heap.empty : Heap := ⟨[], false, 0, fun _ ↦ false⟩

/-- `createReplyObject`: the fields other than the type are zero. -/
def createReplyObject (type : ReplyType) : RedisReply :=
  ⟨type, 0, 0, none, 0, none⟩

/-- `parent->element[idx] = r`. -/
def Heap.setElement (h : Heap) (parent : Option Obj) (idx : ℤ) (r : Obj) : Heap :=
  match parent with
  | none => { h with fault := true }
  | some p =>
      match h.cells[p]? with
      | some ⟨reply, 0⟩ =>
          match reply.type, reply.element with
          | .array, some vec =>
              if 0 ≤ idx ∧ idx < vec.length then
                let reply := { reply with element := some (vec.set idx.toNat (some r)) }
                { h with cells := h.cells.set p ⟨reply, 0⟩ }
              else { h with fault := true }
          | _, _ => { h with fault := true }
      | _ => { h with fault := true }

/-- The common part of the create functions: allocate the object and, when the
task has a parent, store it in the parent's vector. -/
def Heap.create (h : Heap) (task : RedisReadTask) (parent : Option RedisReadTask)
    (r : RedisReply) : Option Obj × Heap :=
  let h' := { h with calls := h.calls + 1 }
  if h.oom h.calls then (none, h')
  else
    let p := h.cells.length
    let h' := { h' with cells := h.cells ++ [⟨r, 0⟩] }
    match parent with
    | none => (some p, h')
    | some pt => (some p, h'.setElement pt.obj task.idx p)

def createStringObject (task : RedisReadTask) (parent : Option RedisReadTask)
    (str : List UInt8) (h : Heap) : Option Obj × Heap :=
  h.create task parent
    { createReplyObject (task.type.getD .string) with
      str := some (str ++ [0]), len := str.length }

/-- `elements` arrives as an `int` and is stored as a `size_t`. -/
def createArrayObject (task : RedisReadTask) (parent : Option RedisReadTask)
    (elements : ℤ) (h : Heap) : Option Obj × Heap :=
  h.create task parent
    { createReplyObject .array with
      element := if 0 < elements then some (List.replicate elements.toNat none) else none
      elements := (elements % 2 ^ 64).toNat }

def createIntegerObject (task : RedisReadTask) (parent : Option RedisReadTask)
    (value : ℤ) (h : Heap) : Option Obj × Heap :=
  h.create task parent { createReplyObject .integer with integer := value }

def createNilObject (task : RedisReadTask) (parent : Option RedisReadTask)
    (h : Heap) : Option Obj × Heap :=
  h.create task parent (createReplyObject .nil)

/-- `freeReplyObject`, `depth` bounding the nesting it follows. -/
def freeReplyObjectAt : ℕ → Obj → Heap → Heap
  | 0, _, h => { h with fault := true }
  | depth + 1, p, h =>
      match h.cells[p]? with
      | none => { h with fault := true }
      | some ⟨reply, frees⟩ =>
          let h :=
            match reply.type, reply.element with
            | .array, some vec =>
                if vec.length < reply.elements then { h with fault := true }
                else (vec.take reply.elements).foldl (fun h child ↦
                  match child with
                  | none => h
                  | some q => freeReplyObjectAt depth q h) h
            | _, _ => h
          { h with cells := h.cells.set p ⟨reply, frees + 1⟩ }

def freeReplyObject (p : Obj) (h : Heap) : Heap :=
  freeReplyObjectAt (h.cells.length + 1) p h

/-- `defaultFunctions`. -/
def defaultFunctions : RedisReplyObjectFunctions Heap where
  createString := some createStringObject
  createArray := some createArrayObject
  createInteger := some createIntegerObject
  createNil := some createNilObject
  freeObject := some freeReplyObject

end MuxHiredis
