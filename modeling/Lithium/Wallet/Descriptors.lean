import Lithium.Lib.Fallible
import Lithium.Lib.Transition
import Lithium.Primitives.Transaction

/-!
# Descriptor managers

A manager derives the scripts of a descriptor index by index and keeps them in a map.
How a descriptor is expanded, and how its cache is kept, is behind an interface; what
is modelled are the counters of the manager: the range, the next index to give out and
the highest index in the cache.

A manager that is loaded again fills its map by another loop than a running one, from
the start of the range instead of from zero. The maps agree for ranges that start at
zero.
-/

namespace Lithium

inductive OutputType where
  | legacy
  | p2shSegwit
  | bech32
  | bech32m
  | unknown
deriving DecidableEq

/-- What a manager asks its descriptor; `π` are the keys at hand, `γ` the caches. -/
structure Descriptor (π γ : Type) where
  isRange : Bool
  isSingleType : Bool
  outputType : Option OutputType
  expandFromCache : Int → γ → Option (List CScript)
  expand : Int → π → Option (List CScript × γ)
  /-- `MergeAndDiff` -/
  merge : γ → γ → γ

structure WalletDescriptor (γ : Type) where
  rangeStart : Int
  rangeEnd : Int
  nextIndex : Int
  cache : γ

structure DescriptorScriptPubKeyMan (γ : Type) extends WalletDescriptor γ where
  mapScriptPubKeys : CScript → Option Int
  maxCachedIndex : Int
  havePrivateKeys : Bool
  keypoolSize : Nat

inductive KeyAbort where
  /-- the assertion at the end of `TopUp` -/
  | rangeNotCached
  /-- the assertion on the output type in `GetNewDestination` -/
  | noOutputType
  | runtimeError (what : String)
deriving DecidableEq

/-- An answer, and the manager after it. -/
abbrev KeyAnswer (γ α : Type) := α × DescriptorScriptPubKeyMan γ

/-- The value of an `int32_t`. -/
def int32 (n : Int) : Int := n.bmod (2 ^ 32)

namespace DescriptorScriptPubKeyMan
variable {π γ δ : Type} (d : Descriptor π γ) (man : DescriptorScriptPubKeyMan γ)

def isMine (script : CScript) : Bool := (man.mapScriptPubKeys script).isSome

/-- The scripts of one more index. -/
def addIndex (scripts : List CScript) (cache : γ) : DescriptorScriptPubKeyMan γ :=
  let i := man.maxCachedIndex + 1
  { man with
    cache
    mapScriptPubKeys := fun script =>
      if script ∈ scripts then some i else man.mapScriptPubKeys script
    maxCachedIndex := i }

/-- The loop of `TopUp`, with the number of indexes to go. -/
def topUpLoop (keys : π) : Nat → DescriptorScriptPubKeyMan γ → KeyAnswer γ Bool
  | 0, man => (true, man)
  | n + 1, man =>
    match d.expandFromCache (man.maxCachedIndex + 1) man.cache with
    | some scripts => topUpLoop keys n (man.addIndex scripts man.cache)
    | none =>
      match d.expand (man.maxCachedIndex + 1) keys with
      | none => (false, man)
      | some (scripts, tempCache) =>
        topUpLoop keys n (man.addIndex scripts (d.merge man.cache tempCache))

def targetSize (size : Nat) : Nat := if size > 0 then size else man.keypoolSize

def newRangeEnd (size : Nat) : Int :=
  if d.isRange then max (int32 (man.nextIndex + int32 (man.targetSize size))) man.rangeEnd else 1

/-- A descriptor without a range has one index. -/
def setRange : DescriptorScriptPubKeyMan γ :=
  { man with
    rangeStart := if d.isRange then man.rangeStart else 0
    rangeEnd := if d.isRange then man.rangeEnd else 1 }

def topUp (keys : π) (size : Nat) : Except KeyAbort (KeyAnswer γ Bool) :=
  let rangeEnd := man.newRangeEnd d size
  match topUpLoop d keys (rangeEnd - (man.maxCachedIndex + 1)).toNat (man.setRange d) with
  | (false, man) => .ok (false, man)
  | (true, man) =>
    if rangeEnd - 1 = man.maxCachedIndex then .ok (true, { man with rangeEnd })
    else .error .rangeNotCached

def canGetAddresses : Bool :=
  d.isSingleType && d.isRange && (man.havePrivateKeys || decide (man.nextIndex < man.rangeEnd))

def takeIndex : DescriptorScriptPubKeyMan γ := { man with nextIndex := int32 (man.nextIndex + 1) }

variable (extractDestination : CScript → Option δ) (keys : π)

/-- What `GetNewDestination` answers when the range has been filled, or not. -/
def giveDestination (filled : Bool) : KeyAnswer γ (Except String δ) :=
  match if filled then d.expandFromCache man.nextIndex man.cache else none with
  | none => (.error "Error: Keypool ran out, please call keypoolrefill first", man)
  | some scripts =>
    match scripts.head?.bind extractDestination with
    | none => (.error "Error: Cannot extract destination from the generated scriptpubkey", man)
    | some dest => (.ok dest, man.takeIndex)

def getNewDestination (type : OutputType) : Except KeyAbort (KeyAnswer γ (Except String δ)) :=
  if man.canGetAddresses d = false then .ok (.error "No addresses available", man)
  else
    match d.outputType with
    | none => .error .noOutputType
    | some descAddrType =>
      if type ≠ descAddrType then
        .error (.runtimeError ("GetNewDestination: Types are inconsistent. " ++
          "Stored type does not match type of newly generated address"))
      else do
        let (_, man) ← man.topUp d keys 0
        let (filled, man) ←
          (if man.rangeEnd ≤ man.maxCachedIndex then man.topUp d keys 1 else .ok (true, man))
        .ok (man.giveDestination d extractDestination filled)

/-- The loop of `MarkUnusedAddresses`, with the number of indexes to go. -/
def markLoop : Nat → DescriptorScriptPubKeyMan γ → Except KeyAbort (KeyAnswer γ (List (Option δ)))
  | 0, man => .ok ([], man)
  | n + 1, man =>
    match d.expandFromCache man.nextIndex man.cache with
    | none => .error (.runtimeError "MarkUnusedAddresses: Unable to expand descriptor from cache")
    | some scripts => do
      let (result, man) ← markLoop n man.takeIndex
      .ok (scripts.head?.bind extractDestination :: result, man)

def markUnusedAddresses (script : CScript) : Except KeyAbort (KeyAnswer γ (List (Option δ))) :=
  match man.mapScriptPubKeys script with
  | none => .ok ([], man)
  | some index => do
    let (result, man) ← markLoop d extractDestination (index + 1 - man.nextIndex).toNat man
    let (_, man) ← man.topUp d keys 0
    .ok (result, man)

/-- An update to a range of the same descriptor. -/
def updateWalletDescriptor (desc : WalletDescriptor γ) :
    Except KeyAbort (DescriptorScriptPubKeyMan γ) :=
  if desc.rangeStart > man.rangeStart ∨ desc.rangeEnd < man.rangeEnd then
    .error (.runtimeError ("UpdateWalletDescriptor: new range must include current range = [" ++
      toString man.rangeStart ++ "," ++ toString (man.rangeEnd - 1) ++ "]"))
  else
    .ok { man with
      toWalletDescriptor := desc, mapScriptPubKeys := fun _ => none, maxCachedIndex := -1 }

/-- The scripts of an index are put into the map of a manager that is loaded. -/
def loadScripts (i : Int) (m : CScript → Option Int) (scripts : List CScript) :
    Except KeyAbort (CScript → Option Int) :=
  scripts.foldlM (fun m script =>
    match m script with
    | some j => .error (.runtimeError ("Error: Already loaded script at index " ++ toString i ++
        " as being at index " ++ toString j))
    | none => .ok (Function.update m script (some i))) m

def setCacheLoop : Nat → Int → DescriptorScriptPubKeyMan γ →
    Except KeyAbort (DescriptorScriptPubKeyMan γ)
  | 0, _, man => .ok man
  | n + 1, i, man =>
    match d.expandFromCache i man.cache with
    | none => .error (.runtimeError "Error: Unable to expand wallet descriptor from cache")
    | some scripts => do
      let mapScriptPubKeys ← loadScripts i man.mapScriptPubKeys scripts
      setCacheLoop n (i + 1) { man with mapScriptPubKeys, maxCachedIndex := man.maxCachedIndex + 1 }

end DescriptorScriptPubKeyMan
end Lithium
