import Mathlib.Data.List.Basic
import Mathlib.Data.List.Nodup
import Mathlib.Logic.Relation
import Mathlib.Logic.Function.Basic

/-!
# The task graph of deadlock.cpp

`vertex_list` with its adjacency lists, the lock table, and the operations that
build the graph. A search that returns `-1` in the source returns `none` here.
-/

namespace LearningC

inductive PairType
  | process
  | resource
  deriving DecidableEq, Repr

/-- `struct pair_t`, used for vertices and for slots of the lock table. -/
structure Pair where
  thId : Nat
  type : PairType
  lockId : Nat := 0
  degress : Int := 0
  deriving DecidableEq, Repr

/-- The part of a pair that `search_vertex` compares. -/
abbrev Key := PairType × Nat

def Pair.key (pair : Pair) : Key := (pair.type, pair.thId)

/-- `struct vertex_t`; the list reached through `next` is `next`. -/
structure Vertex where
  pair : Pair
  next : List Pair
  deriving DecidableEq, Repr

def MAX : Nat := 100010

/-- `struct task_graph`. The first `vertex_num` and `lock_num` entries of the two
tables are lists; `printed` collects the paths handed to `print_deadlock`. -/
structure TaskGraph where
  vertexList : List Vertex
  lockList : List Pair
  path : Int → Int
  visited : Nat → Int
  k : Int
  deadlock : Int
  printed : List (List Int)

namespace TaskGraph

/-- An empty graph with a lock table of `lockNum` zeroed slots. -/
def init (lockNum : Nat) : TaskGraph where
  vertexList := []
  lockList := List.replicate lockNum { thId := 0, type := .process }
  path := fun _ => 0
  visited := fun _ => 0
  k := 0
  deadlock := 0
  printed := []

def vertexNum (tg : TaskGraph) : Nat := tg.vertexList.length

def lockNum (tg : TaskGraph) : Nat := tg.lockList.length

def searchVertex (tg : TaskGraph) (pair : Pair) : Option Nat :=
  tg.vertexList.findIdx? fun ver => ver.pair.type == pair.type && ver.pair.thId == pair.thId

def addVertex (tg : TaskGraph) (pair : Pair) : TaskGraph :=
  if tg.searchVertex pair = none then { tg with vertexList := tg.vertexList ++ [⟨pair, []⟩] } else tg

def modifyVertex (tg : TaskGraph) (i : Nat) (f : Vertex → Vertex) : TaskGraph :=
  { tg with vertexList := tg.vertexList.modify i f }

def addEdge (tg : TaskGraph) (u v : Pair) : TaskGraph :=
  let tg := (tg.addVertex u).addVertex v
  match tg.searchVertex u with
  | some idx => tg.modifyVertex idx fun ver => { ver with next := ver.next ++ [v] }
  | none => tg

/-- The walk starts at the vertex itself and compares `th_id` only. -/
def verifyEdge (tg : TaskGraph) (u v : Pair) : Bool :=
  if tg.vertexNum = 0 then false
  else match (tg.searchVertex u).bind fun idx => tg.vertexList[idx]? with
    | none => false
    | some ver => (ver.pair :: ver.next).any fun cnt => cnt.thId == v.thId

def removeEdge (tg : TaskGraph) (u v : Pair) : TaskGraph :=
  match tg.searchVertex u, tg.searchVertex v with
  | some idxU, some _ => tg.modifyVertex idxU fun ver =>
      { ver with next := ver.next.eraseP fun cnt => cnt.thId == v.thId }
  | _, _ => tg

end TaskGraph

/-- The calls that build a graph. -/
inductive GraphOp
  | addVertex (pair : Pair)
  | addEdge (u v : Pair)
  | removeEdge (u v : Pair)
  deriving DecidableEq, Repr

def GraphOp.apply (tg : TaskGraph) : GraphOp → TaskGraph
  | .addVertex pair => tg.addVertex pair
  | .addEdge u v => tg.addEdge u v
  | .removeEdge u v => tg.removeEdge u v

/-- Built from an empty `vertex_list`, whatever the other fields hold. -/
def Built (tg : TaskGraph) : Prop :=
  ∃ tg₀ ops, tg₀.vertexList = [] ∧ List.foldl GraphOp.apply tg₀ ops = tg

def processPair (thId : Nat) : Pair := { thId := thId, type := .process }

/-- Adds the threads `ids` and an edge for each pair of `es`, all of type `PROCESS`. -/
def processGraph (ids : List Nat) (es : List (Nat × Nat)) : TaskGraph :=
  ((ids.map fun id => GraphOp.addVertex (processPair id)) ++
    es.map fun e => GraphOp.addEdge (processPair e.1) (processPair e.2)).foldl GraphOp.apply (.init 0)

/-- The graph that `main` builds. -/
def mainGraph : TaskGraph :=
  processGraph [1, 2, 3, 4, 5] [(1, 2), (2, 3), (3, 4), (4, 5), (3, 1), (5, 1)]

end LearningC
