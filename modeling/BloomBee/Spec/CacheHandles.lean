import Mathlib.Data.Finset.Basic
import Mathlib.Data.Int.Notation
import Mathlib.Data.List.AList

/-! The handles of `MemoryCache` (`server/memory_cache.py`) in one connection-handler process:
the dictionaries of live allocations, the two token counters, and the pipe to the runtime. A
request holds an allocation group, one handle for each descriptor, until `_free` at its end or
until `force_free` on one of the handles. A section under `_lock_metadata` is one step. When a
wait for memory ends is left open here, `Spec.MemoryCache` has the check. -/

set_option autoImplicit false

namespace BloomBee.CacheHandles

/-- What the pipe carries: handles with descriptors, or handles to delete. -/
inductive Message where
  | create (handles : List ℕ)
  | delete (handles : List ℕ)
  deriving DecidableEq

/-- Where a request stands. `descriptors` has the tokens each descriptor asks for. -/
inductive Phase where
  | idle
  | waiting (descriptors : List ℕ)
  | holding (handles : List ℕ)
  deriving DecidableEq

/-- `get_allocation_size_tokens` -/
def allocationSizeTokens (descriptors : List ℕ) : ℕ := descriptors.foldl (fun n d => max d n) 0

/-- `current_size_tokens` is never negative. `allocatedTensors` has the keys of the runtime's
`_allocated_tensors`. The last two fields are history: the groups whose tokens were given back,
and the handles that were sent for deletion while their group was live. -/
structure State (ι : Type) where
  currentSizeTokens : ℕ
  enqueuedSizeTokens : ℤ
  handleCounter : ℕ
  allocationTokens : AList fun _ : List ℕ => ℕ
  handleToAllocation : AList fun _ : ℕ => List ℕ
  pipe : List Message
  allocatedTensors : Finset ℕ
  phase : ι → Phase
  returned : List (List ℕ)
  deletedLive : List ℕ

variable {ι : Type}

def State.init : State ι := ⟨0, 0, 0, ∅, ∅, [], ∅, fun _ => .idle, [], []⟩

/-- The first loop of `force_free`: the groups of the handles, each once. A handle without a
group stands for itself unless `onlyKnown`, which is `alloc_tokens_num is not None`. -/
def groupsOf (table : AList fun _ : ℕ => List ℕ) (onlyKnown : Bool) :
    List (List ℕ) → List ℕ → List (List ℕ)
  | groups, [] => groups
  | groups, h :: hs =>
    match table.lookup h with
    | some g => groupsOf table onlyKnown (if g ∈ groups then groups else groups ++ [g]) hs
    | none =>
      if onlyKnown then groupsOf table onlyKnown groups hs
      else groupsOf table onlyKnown (if [h] ∈ groups then groups else groups ++ [[h]]) hs

structure Freed where
  allocationTokens : AList fun _ : List ℕ => ℕ
  handleToAllocation : AList fun _ : ℕ => List ℕ
  tokensToFree : ℕ
  handlesToFree : List ℕ
  returned : List (List ℕ)

def eraseAll (table : AList fun _ : ℕ => List ℕ) (group : List ℕ) : AList fun _ : ℕ => List ℕ :=
  group.foldl (fun t h => t.erase h) table

def freeGroup (onlyKnown : Bool) (f : Freed) (group : List ℕ) : Freed :=
  match f.allocationTokens.lookup group with
  | some tokens =>
    { allocationTokens := f.allocationTokens.erase group
      handleToAllocation := eraseAll f.handleToAllocation group
      tokensToFree := f.tokensToFree + tokens
      handlesToFree := f.handlesToFree ++ group
      returned := f.returned ++ [group] }
  | none =>
    if onlyKnown then f
    else
      { f with
        handleToAllocation := eraseAll f.handleToAllocation group
        handlesToFree := f.handlesToFree ++ group }

/-- The end of `force_free`: the message to the runtime and the tokens given back. -/
def State.release (s : State ι) (f : Freed) : State ι :=
  { s with
    allocationTokens := f.allocationTokens
    handleToAllocation := f.handleToAllocation
    pipe := if f.handlesToFree = [] then s.pipe else s.pipe ++ [.delete f.handlesToFree]
    currentSizeTokens := s.currentSizeTokens - f.tokensToFree
    returned := s.returned ++ f.returned
    deletedLive := s.deletedLive ++ f.handlesToFree.filter (· ∈ s.handleToAllocation) }

/-- `force_free`, without the event it sets. -/
def forceFree (onlyKnown : Bool) (s : State ι) (handles : List ℕ) : State ι :=
  s.release ((groupsOf s.handleToAllocation onlyKnown [] handles).foldl (freeGroup onlyKnown)
    ⟨s.allocationTokens, s.handleToAllocation, 0, [], []⟩)

def register (table : AList fun _ : ℕ => List ℕ) (handles : List ℕ) :
    AList fun _ : ℕ => List ℕ :=
  handles.foldl (fun t h => t.insert h handles) table

/-- What `_process_message` does to the runtime's handles. -/
def processMessage (allocated : Finset ℕ) : Message → Finset ℕ
  | .create handles => allocated ∪ handles.toFinset
  | .delete handles => allocated \ handles.toFinset

inductive Event (ι : Type) where
  /-- `_wait_for_free_memory` begins. -/
  | enqueue (i : ι) (descriptors : List ℕ)
  /-- The wait for memory is over: `_schedule_alloc` returns handles. -/
  | succeed (i : ι)
  /-- No room, a timeout or a cancellation. -/
  | fail (i : ι)
  /-- `_free` at the end of `allocate_cache`. -/
  | free (i : ι)
  | forceFree (handles : List ℕ)
  /-- The runtime takes one message from the pipe, in `use_cache`. -/
  | receive

def State.newHandles (s : State ι) (descriptors : List ℕ) : List ℕ :=
  (List.range descriptors.length).map (s.handleCounter + ·)

variable [DecidableEq ι]

/-- The section of `_schedule_alloc` under `_lock_metadata`, after the request has left the
queue. -/
def scheduleAlloc (s : State ι) (i : ι) (descriptors : List ℕ) : State ι :=
  { s with
    currentSizeTokens := s.currentSizeTokens + allocationSizeTokens descriptors
    enqueuedSizeTokens := s.enqueuedSizeTokens - allocationSizeTokens descriptors
    handleCounter := s.handleCounter + (s.newHandles descriptors).length
    allocationTokens :=
      s.allocationTokens.insert (s.newHandles descriptors) (allocationSizeTokens descriptors)
    handleToAllocation := register s.handleToAllocation (s.newHandles descriptors)
    pipe := s.pipe ++ [.create (s.newHandles descriptors)]
    phase := Function.update s.phase i (.holding (s.newHandles descriptors)) }

def step (s : State ι) : Event ι → Option (State ι)
  | .enqueue i descriptors =>
    match s.phase i with
    | .idle =>
      some { s with
        enqueuedSizeTokens := s.enqueuedSizeTokens + allocationSizeTokens descriptors
        phase := Function.update s.phase i (.waiting descriptors) }
    | _ => none
  | .succeed i =>
    match s.phase i with
    | .waiting descriptors => some (scheduleAlloc s i descriptors)
    | _ => none
  | .fail i =>
    match s.phase i with
    | .waiting descriptors =>
      some { s with
        enqueuedSizeTokens := s.enqueuedSizeTokens - allocationSizeTokens descriptors
        phase := Function.update s.phase i .idle }
    | _ => none
  | .free i =>
    match s.phase i with
    | .holding handles =>
      some { forceFree true s handles with phase := Function.update s.phase i .idle }
    | _ => none
  | .forceFree handles => some (forceFree false s handles)
  | .receive =>
    match s.pipe with
    | [] => none
    | m :: pipe =>
      some { s with pipe := pipe, allocatedTensors := processMessage s.allocatedTensors m }

/-! What is counted: a group is live from its allocation to the first free of one of its
handles. -/

structure Group where
  handles : List ℕ
  tokens : ℕ
  deriving DecidableEq

def unhit (handles : List ℕ) (live : List Group) : List Group :=
  live.filter fun g => ∀ h ∈ g.handles, h ∉ handles

def liveStep (s : State ι) (live : List Group) : Event ι → List Group
  | .succeed i =>
    match s.phase i with
    | .waiting descriptors =>
      live ++ [⟨s.newHandles descriptors, allocationSizeTokens descriptors⟩]
    | _ => live
  | .free i =>
    match s.phase i with
    | .holding handles => unhit handles live
    | _ => live
  | .forceFree handles => unhit handles live
  | _ => live

/-- The states that some sequence of events reaches, with the groups live there. -/
inductive Reaches : State ι → List Group → Prop where
  | init : Reaches .init []
  | step {s s' : State ι} {live : List Group} {e : Event ι} (h : Reaches s live)
      (hs : CacheHandles.step s e = some s') : Reaches s' (liveStep s live e)

end BloomBee.CacheHandles
