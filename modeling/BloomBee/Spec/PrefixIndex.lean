import Mathlib.Data.Int.Notation
import BloomBee.Lib.OrderedDict

/-! `KVPrefixIndex` of `server/prefix_index.py`. The hash of a list of tokens is a parameter.
A token that is not an integer is `none`. A call that raises leaves the index as it was. -/

set_option autoImplicit false

namespace BloomBee.PrefixIndex

inductive PrefixError where
  /-- "token prefixes must contain integer token IDs" -/
  | notInteger
  /-- "token prefix must be non-empty" -/
  | empty
  /-- "prefix_length must be within the token_prefix length" -/
  | prefixLength
  deriving DecidableEq, Repr

/-- `κ` are the hashes, `H` the handles and `V` the values of the metadata. -/
structure KVPrefixIndexEntry (κ H V : Type) where
  tokenPrefix : List ℤ
  handle : H
  prefixLength : ℤ
  tokenSha256 : κ
  metadata : OrderedDict String V

structure KVPrefixIndex (κ H V : Type) where
  maxSizeTokens : Option ℕ
  entries : OrderedDict κ (KVPrefixIndexEntry κ H V)
  currentSizeTokens : ℤ

variable {κ H V : Type}

def KVPrefixIndex.new (maxSizeTokens : Option ℕ) : KVPrefixIndex κ H V :=
  ⟨maxSizeTokens, .empty, 0⟩

/-- The integers among the tokens, if all of them are. -/
def integers : List (Option ℤ) → Except PrefixError (List ℤ)
  | [] => .ok []
  | none :: _ => .error .notInteger
  | some token :: tokens => do
    let out ← integers tokens
    return token :: out

def normalizeTokens (tokens : List (Option ℤ)) : Except PrefixError (List ℤ) := do
  let out ← integers tokens
  if out = [] then .error .empty else .ok out

/-- The loop of `_evict_if_needed`: every turn removes an entry. -/
def evictLoop (maxSizeTokens : ℕ) : ℕ → KVPrefixIndex κ H V → KVPrefixIndex κ H V
  | 0, index => index
  | turns + 1, index =>
    if (maxSizeTokens : ℤ) < index.currentSizeTokens then
      match index.entries.popFirst with
      | none => index
      | some ((_, removed), entries) => evictLoop maxSizeTokens turns
          { index with
            entries
            currentSizeTokens := index.currentSizeTokens - removed.prefixLength }
    else index

def evictIfNeeded (index : KVPrefixIndex κ H V) : KVPrefixIndex κ H V :=
  match index.maxSizeTokens with
  | none => index
  | some maxSizeTokens => evictLoop maxSizeTokens index.entries.entries.length index

variable [DecidableEq κ]

/-- `self._entries.pop(key, None)`, with what it takes off the size. -/
def popKey (key : κ) (index : KVPrefixIndex κ H V) :
    Option (KVPrefixIndexEntry κ H V) × KVPrefixIndex κ H V :=
  match index.entries.get? key with
  | none => (none, index)
  | some previous => (some previous,
      { index with
        entries := index.entries.erase key
        currentSizeTokens := index.currentSizeTokens - previous.prefixLength })

/-- The operations, for a hash of normalized tokens. -/
def register (hash : List ℤ → κ) (index : KVPrefixIndex κ H V) (tokenPrefix : List (Option ℤ))
    (handle : H) (prefixLength : Option ℤ) (metadata : Option (OrderedDict String V)) :
    Except PrefixError (KVPrefixIndexEntry κ H V × KVPrefixIndex κ H V) := do
  let tokens ← normalizeTokens tokenPrefix
  let length := prefixLength.getD tokens.length
  if length ≤ 0 ∨ (tokens.length : ℤ) < length then .error .prefixLength
  else
    let indexedTokens := tokens.take length.toNat
    let key := hash indexedTokens
    let (_, index) := popKey key index
    let entry := ⟨indexedTokens, handle, length, key, metadata.getD .empty⟩
    return (entry, evictIfNeeded
      { index with
        entries := index.entries.set key entry
        currentSizeTokens := index.currentSizeTokens + length })

/-- The loop of `lookup`: shorter and shorter prefixes of the query. -/
def lookupLoop (hash : List ℤ → κ) (index : KVPrefixIndex κ H V) (query : List ℤ) (minLen : ℤ) :
    ℕ → Option (κ × KVPrefixIndexEntry κ H V)
  | 0 => none
  | length + 1 =>
    if (length : ℤ) + 1 < minLen then none
    else
      let key := hash (query.take (length + 1))
      match index.entries.get? key with
      | none => lookupLoop hash index query minLen length
      | some entry =>
        if entry.tokenPrefix = query.take (length + 1) then some (key, entry)
        else lookupLoop hash index query minLen length

def lookup (hash : List ℤ → κ) (index : KVPrefixIndex κ H V) (tokens : List (Option ℤ))
    (minPrefixLength : ℤ) :
    Except PrefixError (Option (KVPrefixIndexEntry κ H V) × KVPrefixIndex κ H V) := do
  let query ← normalizeTokens tokens
  let minLen := max 1 minPrefixLength
  match lookupLoop hash index query minLen query.length with
  | none => return (none, index)
  | some (key, entry) =>
    return (some entry, { index with entries := index.entries.moveToEnd key })

def remove (hash : List ℤ → κ) (index : KVPrefixIndex κ H V) (tokenPrefix : List (Option ℤ)) :
    Except PrefixError (Option (KVPrefixIndexEntry κ H V) × KVPrefixIndex κ H V) := do
  let tokens ← normalizeTokens tokenPrefix
  return popKey (hash tokens) index

inductive Operation (H V : Type) where
  | register (tokenPrefix : List (Option ℤ)) (handle : H) (prefixLength : Option ℤ)
      (metadata : Option (OrderedDict String V))
  | lookup (tokens : List (Option ℤ)) (minPrefixLength : ℤ)
  | remove (tokenPrefix : List (Option ℤ))

def Operation.apply (hash : List ℤ → κ) (index : KVPrefixIndex κ H V) :
    Operation H V → Except PrefixError (Option (KVPrefixIndexEntry κ H V) × KVPrefixIndex κ H V)
  | .register tokenPrefix handle prefixLength metadata => do
    let (entry, index) ← PrefixIndex.register hash index tokenPrefix handle prefixLength metadata
    return (some entry, index)
  | .lookup tokens minPrefixLength => PrefixIndex.lookup hash index tokens minPrefixLength
  | .remove tokenPrefix => PrefixIndex.remove hash index tokenPrefix

/-- The key that is used: by a `register`, and by a `lookup` that finds an entry. -/
def Operation.used (found : Option (KVPrefixIndexEntry κ H V)) : Operation H V → Option κ
  | .remove _ => none
  | _ => found.map fun entry => entry.tokenSha256

/-- One operation, with the keys that are used written down, the last one first. -/
def advance (hash : List ℤ → κ) (s : KVPrefixIndex κ H V × List (Option κ))
    (operation : Operation H V) : KVPrefixIndex κ H V × List (Option κ) :=
  match operation.apply hash s.1 with
  | .ok (found, index) => (index, operation.used found :: s.2)
  | .error _ => (s.1, none :: s.2)

def run (hash : List ℤ → κ) (maxSizeTokens : Option ℕ) (operations : List (Operation H V)) :
    KVPrefixIndex κ H V × List (Option κ) :=
  operations.foldl (advance hash) (.new maxSizeTokens, [])

end BloomBee.PrefixIndex
