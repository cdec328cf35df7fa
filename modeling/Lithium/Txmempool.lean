import Lithium.Kernel.MempoolEntry
import Lithium.Lib.Explore
import Lithium.Lib.OrdMapKeys
import Mathlib.Data.Prod.Lex

/-!
# The memory pool

`txmempool.cpp`: transactions waiting for a block, with the links between them and the
totals over ancestors and descendants that each entry carries. Every function that
changes the pool adjusts the totals; `check` compares them with what they should be.

Sets of entries are sets of identifiers and are walked in the order of these, as the
source's sets are. A function gives the text of the assertion that fails, or its
result. What it costs to keep the pool in memory is not modelled, nor is the estimator
of fees: no entry depends on them.
-/

namespace Lithium
open Lib CTxMemPoolEntry

theorem COutPoint.toLex_injective :
    Function.Injective fun o : COutPoint => toLex (o.hash, o.n.toNat) := by
  intro a b h
  obtain ⟨hhash, hn⟩ := Prod.ext_iff.mp (congrArg ofLex h)
  cases a
  simp only [ofLex_toLex] at hhash hn
  rw [hhash, UInt32.toNat_inj.mp hn]

instance : LinearOrder COutPoint :=
  { LinearOrder.lift' _ COutPoint.toLex_injective with
    toDecidableEq := inferInstance
    compare_eq_compareOfLessAndEq := fun a b =>
      ((LinearOrder.lift' _ COutPoint.toLex_injective).compare_eq_compareOfLessAndEq a b).trans
        (by congr) }

structure MemPoolLimits where
  ancestorCount : Int
  ancestorSizeVbytes : Int
  descendantCount : Int
  descendantSizeVbytes : Int
deriving DecidableEq

/-- Limits are compared as unsigned 64-bit numbers. -/
def exceeds (n limit : Int) : Bool := limit % 2 ^ 64 < n

structure CTxMemPool where
  mapTx : OrdMap Uint256 CTxMemPoolEntry
  /-- who spends an output -/
  mapNextTx : OrdMap COutPoint Uint256
  mapDeltas : OrdMap Uint256 Int
  /-- identifiers with witness and without -/
  vTxHashes : List (Uint256 × Uint256)
  /-- the field of this name of the entries -/
  vTxHashesIdx : OrdMap Uint256 Nat
  totalTxSize : Int
  totalFee : Int
  limits : MemPoolLimits
deriving DecidableEq

namespace CTxMemPool

def empty (limits : MemPoolLimits) : CTxMemPool :=
    ⟨.empty, .empty, .empty, [], .empty, 0, 0, limits⟩

section
variable (s : CTxMemPool)

def parentsOf (id : Uint256) : Finset Uint256 := (s.mapTx.find? id).elim ∅ (·.parents)

def childrenOf (id : Uint256) : Finset Uint256 := (s.mapTx.find? id).elim ∅ (·.children)

/-- `mapTx.modify` with a change that may fail. -/
def modify (id : Uint256) (f : CTxMemPoolEntry → Except String CTxMemPoolEntry) :
    Except String CTxMemPool :=
  match s.mapTx.find? id with
  | none => .error "mapTx.iterator_to"
  | some e =>
    match f e with
    | .error expr => .error expr
    | .ok e => .ok { s with mapTx := s.mapTx.insert id e }

/-- Changes the entries of a list one after the other. -/
def modifyAll (f : CTxMemPoolEntry → Except String CTxMemPoolEntry) :
    List Uint256 → CTxMemPool → Except String CTxMemPool
  | [], s => .ok s
  | id :: rest, s =>
    match s.modify id f with
    | .error expr => .error expr
    | .ok s => modifyAll f rest s

def updateChild (entry child : Uint256) (add : Bool) : CTxMemPool :=
  { s with
    mapTx := s.mapTx.modify entry fun e =>
      { e with children := if add then insert child e.children else e.children.erase child } }

def updateParent (entry parent : Uint256) (add : Bool) : CTxMemPool :=
  { s with
    mapTx := s.mapTx.modify entry fun e =>
      { e with parents := if add then insert parent e.parents else e.parents.erase parent } }

/-! ### Ancestors and descendants -/

/-- Adds the descendants of an entry, itself included, to a set that has with each entry
all its descendants. -/
def calculateDescendants (entryit : Uint256) (setDescendants : Finset Uint256) : Finset Uint256 :=
  explore s.childrenOf s.mapTx.size (if entryit ∈ setDescendants then ∅ else {entryit})
    setDescendants

def calculateAllDescendants (entries : Finset Uint256) : Finset Uint256 :=
  (s.mapTx.keysIn entries).foldl (fun set id => s.calculateDescendants id set) ∅

/-- The loop of `CalculateAncestorsAndCheckLimits`; `n` bounds the turns left. No limits
stand for `NoLimits()`. -/
def ancestorsLoop (s : CTxMemPool) (entrySize entryCount : Int) (limits : Option MemPoolLimits) :
    Nat → Finset Uint256 → Finset Uint256 → Int → Except String (Finset Uint256)
  | 0, _, ancestors, _ => .ok ancestors
  | n + 1, staged, ancestors, totalSizeWithAncestors =>
    if h : staged.Nonempty then
      let stageit := staged.min' h
      match s.mapTx.find? stageit with
      | none => .error "mapTx.iterator_to"
      | some stage =>
        let ancestors := insert stageit ancestors
        let total := totalSizeWithAncestors + stage.getTxSize
        let staged := staged.erase stageit ∪ (stage.parents \ ancestors)
        match limits with
        | none => ancestorsLoop s entrySize entryCount limits n staged ancestors total
        | some l =>
          if exceeds (stage.nSizeWithDescendants + entrySize) l.descendantSizeVbytes then
            .error ("exceeds descendant size limit for tx " ++ stageit.getHex ++
              " [limit: " ++ toString l.descendantSizeVbytes ++ "]")
          else if exceeds (stage.nCountWithDescendants + entryCount) l.descendantCount then
            .error ("too many descendants for tx " ++ stageit.getHex ++
              " [limit: " ++ toString l.descendantCount ++ "]")
          else if exceeds total l.ancestorSizeVbytes then
            .error ("exceeds ancestor size limit [limit: " ++
              toString l.ancestorSizeVbytes ++ "]")
          -- The number is tested after each parent and never decreases, so the test
          -- after the last one decides; without parents there is none.
          else if stage.parents.Nonempty ∧
              exceeds (staged.card + ancestors.card + entryCount) l.ancestorCount then
            .error ("too many unconfirmed ancestors [limit: " ++
              toString l.ancestorCount ++ "]")
          else ancestorsLoop s entrySize entryCount limits n staged ancestors total
    else .ok ancestors

def calculateAncestorsAndCheckLimits (entrySize entryCount : Int)
    (staged : Finset Uint256) (limits : Option MemPoolLimits) : Except String (Finset Uint256) :=
  s.ancestorsLoop entrySize entryCount limits s.mapTx.size staged ∅ entrySize

/-- The loop over inputs that looks for parents in the pool. -/
def stageParents (s : CTxMemPool) (entryCount : Int) (limits : Option MemPoolLimits) :
    List CTxIn → Finset Uint256 → Except String (Finset Uint256)
  | [], staged => .ok staged
  | txin :: rest, staged =>
    match s.mapTx.find? txin.prevout.hash with
    | none => stageParents s entryCount limits rest staged
    | some _ =>
      let staged := insert txin.prevout.hash staged
      match limits with
      | none => stageParents s entryCount limits rest staged
      | some l =>
        if exceeds (staged.card + entryCount) l.ancestorCount then
          .error ("too many unconfirmed parents [limit: " ++ toString l.ancestorCount ++ "]")
        else stageParents s entryCount limits rest staged

/-- `CalculateMemPoolAncestors` of a transaction whose parents have to be found. -/
def calculateMemPoolAncestors (tx : CTransaction) (txSize : Int)
    (limits : Option MemPoolLimits) : Except String (Finset Uint256) :=
  match s.stageParents 1 limits tx.vin ∅ with
  | .error e => .error e
  | .ok staged => s.calculateAncestorsAndCheckLimits txSize 1 staged limits

/-- `AssumeCalculateMemPoolAncestors` of an entry, from its links and without limits. -/
def linkedAncestors (e : CTxMemPoolEntry) : Finset Uint256 :=
  match s.calculateAncestorsAndCheckLimits e.getTxSize 1 e.parents none with
  | .error _ => ∅
  | .ok ancestors => ancestors

/-! ### Adding -/

/-- The part of `UpdateAncestorsOf` about links. -/
def updateChildOf (add : Bool) (it : Uint256) : List Uint256 → CTxMemPool → CTxMemPool
  | [], s => s
  | parent :: rest, s => updateChildOf add it rest (s.updateChild parent it add)

section
variable (A : Arithmetic)

def updateAncestorsOf (add : Bool) (it : Uint256) (setAncestors : Finset Uint256)
    (s : CTxMemPool) : Except String CTxMemPool :=
  match s.mapTx.find? it with
  | none => .error "mapTx.iterator_to"
  | some e =>
    let s := updateChildOf add it (s.mapTx.keysIn e.parents) s
    let updateCount : Int := if add then 1 else -1
    modifyAll (updateDescendantState A (updateCount * e.getTxSize)
      (A.wrap (updateCount * e.modifiedFee)) updateCount) (s.mapTx.keysIn setAncestors) s

/-- The sums of `UpdateEntryForAncestors`: size, fee and signature operations. -/
def sumAncestors (s : CTxMemPool) : List Uint256 → Int × Int × Int → Int × Int × Int
  | [], sums => sums
  | id :: rest, (updateSize, updateFee, updateSigOpsCost) =>
    match s.mapTx.find? id with
    | none => sumAncestors s rest (updateSize, updateFee, updateSigOpsCost)
    | some e =>
      sumAncestors s rest (updateSize + e.getTxSize, A.wrap (updateFee + e.modifiedFee),
        updateSigOpsCost + e.sigOpCost)

def updateEntryForAncestors (it : Uint256) (setAncestors : Finset Uint256)
    (s : CTxMemPool) : Except String CTxMemPool :=
  match s.sumAncestors A (s.mapTx.keysIn setAncestors) (0, 0, 0) with
  | (updateSize, updateFee, updateSigOpsCost) =>
    s.modify it (updateAncestorState A updateSize updateFee setAncestors.card
      updateSigOpsCost)

def insertNextTx (id : Uint256) : List CTxIn → OrdMap COutPoint Uint256 → OrdMap COutPoint Uint256
  | [], m => m
  | txin :: rest, m =>
    insertNextTx id rest
      (match m.find? txin.prevout with
      | none => m.insert txin.prevout id
      | some _ => m)

section
variable (s : CTxMemPool)

/-- The entry that goes into the pool: with the change that a user has asked for, and
linked to its parents. -/
def preparedEntry (entry : CTxMemPoolEntry) : CTxMemPoolEntry :=
  let e :=
    match s.mapDeltas.find? entry.tx.getHash with
    | none => entry
    | some delta => if delta ≠ 0 then entry.updateModifiedFee A delta else entry
  { e with
    parents := (entry.tx.vin.map fun txin => txin.prevout.hash).toFinset ∩
      insert entry.tx.getHash s.mapTx.keys }

/-- `addUnchecked` of a transaction that is not in the pool. -/
def addUnchecked (entry : CTxMemPoolEntry)
    (setAncestors : Finset Uint256) : Except String CTxMemPool :=
  let id := entry.tx.getHash
  let s := { s with
    mapTx := s.mapTx.insert id (s.preparedEntry A entry)
    mapNextTx := insertNextTx id entry.tx.vin s.mapNextTx
    vTxHashes := s.vTxHashes ++ [(entry.tx.getWitnessHash, id)]
    vTxHashesIdx := s.vTxHashesIdx.insert id s.vTxHashes.length
    totalTxSize := s.totalTxSize + entry.getTxSize
    totalFee := s.totalFee + entry.nFee }
  match updateAncestorsOf A true id setAncestors s with
  | .error expr => .error expr
  | .ok s => updateEntryForAncestors A id setAncestors s

/-! ### Removing -/

/-- The first loop of `UpdateForRemoveFromMempool`. -/
def updateDescendantsForRemoval (A : Arithmetic) : List Uint256 → CTxMemPool →
    Except String CTxMemPool
  | [], s => .ok s
  | removeIt :: rest, s =>
    match s.mapTx.find? removeIt with
    | none => .error "mapTx.iterator_to"
    | some e =>
      let setDescendants := (s.calculateDescendants removeIt ∅).erase removeIt
      match modifyAll (updateAncestorState A (-e.getTxSize) (A.wrap (-e.modifiedFee))
          (-1) (-e.sigOpCost)) (s.mapTx.keysIn setDescendants) s with
      | .error expr => .error expr
      | .ok s => updateDescendantsForRemoval A rest s

/-- The second loop. -/
def updateAncestorsForRemoval (A : Arithmetic) : List Uint256 → CTxMemPool →
    Except String CTxMemPool
  | [], s => .ok s
  | removeIt :: rest, s =>
    match s.mapTx.find? removeIt with
    | none => .error "mapTx.iterator_to"
    | some e =>
      match updateAncestorsOf A false removeIt (s.linkedAncestors e) s with
      | .error expr => .error expr
      | .ok s => updateAncestorsForRemoval A rest s

def updateParentOf (it : Uint256) : List Uint256 → CTxMemPool → CTxMemPool
  | [], s => s
  | child :: rest, s => updateParentOf it rest (s.updateParent child it false)

def updateChildrenForRemoval (it : Uint256) : CTxMemPool :=
  updateParentOf it (s.mapTx.keysIn (s.childrenOf it)) s

def updateForRemoveFromMempool
    (entriesToRemove : List Uint256) (updateDescendants : Bool) : Except String CTxMemPool :=
  match if updateDescendants then updateDescendantsForRemoval A entriesToRemove s else .ok s with
  | .error expr => .error expr
  | .ok s =>
    match updateAncestorsForRemoval A entriesToRemove s with
    | .error expr => .error expr
    | .ok s => .ok (entriesToRemove.foldl updateChildrenForRemoval s)

/-- The last element of `vTxHashes` takes the place of the removed one. -/
def eraseHash (it : Uint256) : CTxMemPool :=
  match s.vTxHashes.getLast?, s.vTxHashesIdx.find? it with
  | some last, some idx =>
    if 1 < s.vTxHashes.length then
      { s with
        vTxHashes := (s.vTxHashes.set idx last).dropLast
        vTxHashesIdx := (s.vTxHashesIdx.insert last.2 idx).erase it }
    else { s with vTxHashes := [], vTxHashesIdx := s.vTxHashesIdx.erase it }
  | _, _ => s

def removeUnchecked (it : Uint256) : CTxMemPool :=
  match s.mapTx.find? it with
  | none => s
  | some e =>
    { s.eraseHash it with
      mapNextTx := e.tx.vin.foldl (fun m (txin : CTxIn) => m.erase txin.prevout) s.mapNextTx
      totalTxSize := s.totalTxSize - e.getTxSize
      totalFee := s.totalFee - e.nFee
      mapTx := s.mapTx.erase it }

def removeStaged (stage : Finset Uint256) (updateDescendants : Bool) : Except String CTxMemPool :=
  let entries := s.mapTx.keysIn stage
  match s.updateForRemoveFromMempool A entries updateDescendants with
  | .error expr => .error expr
  | .ok s => .ok (entries.foldl removeUnchecked s)

/-- The entries that `removeRecursive` starts from: the transaction, or else those that
spend its outputs. -/
def recursionStart (origTx : CTransaction) : Except String (Finset Uint256) :=
  match s.mapTx.find? origTx.getHash with
  | some _ => .ok {origTx.getHash}
  | none =>
    let spenders := (List.range origTx.vout.length).filterMap fun i =>
      s.mapNextTx.find? ⟨origTx.getHash, UInt32.ofNat i⟩
    if spenders.all fun id => (s.mapTx.find? id).isSome then .ok spenders.toFinset
    else .error "nextit != mapTx.end()"

def removeRecursive (origTx : CTransaction) : Except String CTxMemPool :=
  match s.recursionStart origTx with
  | .error expr => .error expr
  | .ok txToRemove => s.removeStaged A (s.calculateAllDescendants txToRemove) false

end
end

def clearPrioritisation (hash : Uint256) : CTxMemPool :=
  { s with mapDeltas := s.mapDeltas.erase hash }

end

/-- The loop of `removeConflicts` over the inputs. A transaction is told from another by
its identifier. -/
def removeConflictsLoop (A : Arithmetic) (hash : Uint256) : List CTxIn → CTxMemPool →
    Except String CTxMemPool
  | [], s => .ok s
  | txin :: rest, s =>
    match (s.mapNextTx.find? txin.prevout).bind s.mapTx.find? with
    | none => removeConflictsLoop A hash rest s
    | some conflict =>
      if conflict.tx.getHash ≠ hash then
        match (s.clearPrioritisation conflict.tx.getHash).removeRecursive A conflict.tx with
        | .error expr => .error expr
        | .ok s => removeConflictsLoop A hash rest s
      else removeConflictsLoop A hash rest s

section
variable (A : Arithmetic)

section
variable (s : CTxMemPool)

def removeConflicts (tx : CTransaction) : Except String CTxMemPool :=
  removeConflictsLoop A tx.getHash tx.vin s

/-- The transaction of a block leaves the pool, its children stay. -/
def removeConfirmed (tx : CTransaction) : Except String CTxMemPool :=
  match s.mapTx.find? tx.getHash with
  | none => .ok s
  | some _ => s.removeStaged A {tx.getHash} true

/-- The loop of `removeForBlock` over the transactions of the block. -/
def removeForBlock (A : Arithmetic) : List CTransaction → CTxMemPool → Except String CTxMemPool
  | [], s => .ok s
  | tx :: rest, s =>
    match s.removeConfirmed A tx with
    | .error expr => .error expr
    | .ok s =>
      match s.removeConflicts A tx with
      | .error expr => .error expr
      | .ok s => removeForBlock A rest (s.clearPrioritisation tx.getHash)

/-- The entries for which a test holds, with their descendants, are removed. -/
def removeWhere (test : CTxMemPoolEntry → Bool) : Except String CTxMemPool :=
  let toremove := (s.mapTx.entries.filter fun e => test e.2).map Prod.fst
  s.removeStaged A (s.calculateAllDescendants toremove.toFinset) false

def expire (time : Int) : Except String CTxMemPool := s.removeWhere A fun e => e.nTime < time

/-- The loop of `TrimToSize`; `n` bounds the turns left. The memory that the pool takes
and which entry has the lowest score are given. -/
def trimToSizeLoop (A : Arithmetic) (usage : CTxMemPool → Nat) (lowest : CTxMemPool → Uint256)
    (sizelimit : Nat) : Nat → CTxMemPool → Except String CTxMemPool
  | 0, s => .ok s
  | n + 1, s =>
    if s.mapTx.size ≠ 0 ∧ sizelimit < usage s then
      match s.removeStaged A (s.calculateDescendants (lowest s) ∅) false with
      | .error expr => .error expr
      | .ok s => trimToSizeLoop A usage lowest sizelimit n s
    else .ok s

def trimToSize (usage : CTxMemPool → Nat) (lowest : CTxMemPool → Uint256)
    (sizelimit : Nat) (s : CTxMemPool) : Except String CTxMemPool :=
  trimToSizeLoop A usage lowest sizelimit s.mapTx.size s

/-! ### Priorities -/

def prioritiseTransaction (hash : Uint256) (nFeeDelta : Int) : Except String CTxMemPool :=
  let delta := (s.mapDeltas.find? hash).getD 0
  let s := { s with mapDeltas := s.mapDeltas.insert hash (A.add delta nFeeDelta) }
  match s.mapTx.find? hash with
  | none => .ok s
  | some e =>
    let s := { s with mapTx := s.mapTx.insert hash (e.updateModifiedFee A nFeeDelta) }
    match modifyAll (updateDescendantState A 0 nFeeDelta 0)
        (s.mapTx.keysIn (s.linkedAncestors e)) s with
    | .error expr => .error expr
    | .ok s =>
      modifyAll (updateAncestorState A 0 nFeeDelta 0 0)
        (s.mapTx.keysIn ((s.calculateDescendants hash ∅).erase hash)) s

end
end

/-! ### After a reorganisation -/

abbrev CacheMap := OrdMap Uint256 (Finset Uint256)

/-- What the loop of `UpdateForDescendants` over the descendants changes. -/
structure DescendantPass where
  pool : CTxMemPool
  modifySize : Int
  modifyFee : Int
  modifyCount : Int
  cached : CacheMap
  descendantsToRemove : Finset Uint256

/-- The totals of an entry go over the limits of the pool. -/
def overLimits (s : CTxMemPool) (e : CTxMemPoolEntry) : Bool :=
  exceeds e.nCountWithAncestors s.limits.ancestorCount ||
    exceeds e.nSizeWithAncestors s.limits.ancestorSizeVbytes

/-- One turn: the descendant gets the entry `u` as another ancestor. -/
def updateDescendant (A : Arithmetic) (updateIt : Uint256) (u : CTxMemPoolEntry)
    (p : DescendantPass) (id : Uint256) : Except String DescendantPass :=
  match p.pool.mapTx.find? id with
  | none => .error "mapTx.iterator_to"
  | some e =>
    match e.updateAncestorState A u.getTxSize u.modifiedFee 1 u.sigOpCost with
    | .error expr => .error expr
    | .ok e' =>
      .ok {
        pool := { p.pool with mapTx := p.pool.mapTx.insert id e' }
        modifySize := p.modifySize + e.getTxSize
        modifyFee := A.wrap (p.modifyFee + e.modifiedFee)
        modifyCount := p.modifyCount + 1
        cached := p.cached.insert updateIt
          (insert id ((p.cached.find? updateIt).getD ∅))
        descendantsToRemove :=
          if p.pool.overLimits e' then insert id p.descendantsToRemove
          else p.descendantsToRemove }

def updateDescendantsLoop (A : Arithmetic) (updateIt : Uint256) (u : CTxMemPoolEntry) :
    List Uint256 → DescendantPass → Except String DescendantPass
  | [], p => .ok p
  | id :: rest, p =>
    match updateDescendant A updateIt u p id with
    | .error expr => .error expr
    | .ok p => updateDescendantsLoop A updateIt u rest p

/-- The state of `UpdateTransactionsFromBlock` between two transactions. -/
structure BlockPass where
  pool : CTxMemPool
  cached : CacheMap
  descendantsToRemove : Finset Uint256

def updateForDescendants (A : Arithmetic) (setExclude : Finset Uint256) (updateIt : Uint256)
    (p : BlockPass) : Except String BlockPass :=
  let s := p.pool
  match s.mapTx.find? updateIt with
  | none => .error "mapTx.iterator_to"
  | some u =>
    let descendants := exploreMemo (fun id => s.mapTx.keysIn (s.childrenOf id)) p.cached.find?
      s.mapTx.size (u.children, ∅)
    match updateDescendantsLoop A updateIt u (s.mapTx.keysIn (descendants \ setExclude))
        ⟨s, 0, 0, 0, p.cached, p.descendantsToRemove⟩ with
    | .error expr => .error expr
    | .ok d =>
      match d.pool.modify updateIt
          (updateDescendantState A d.modifySize d.modifyFee d.modifyCount) with
      | .error expr => .error expr
      | .ok s => .ok ⟨s, d.cached, d.descendantsToRemove⟩

/-- The spenders of a transaction, from `mapNextTx`. -/
def spendersOf (s : CTxMemPool) (hash : Uint256) : List Uint256 :=
  (s.mapNextTx.entries.filter fun e => e.1.hash = hash).map Prod.snd

/-- The loop that links the children of a transaction to it. Linking one twice changes
nothing, so that the source's marks on visited entries are left out. -/
def linkChildren (setAlreadyIncluded : Finset Uint256) (it : Uint256) :
    List Uint256 → CTxMemPool → Except String CTxMemPool
  | [], s => .ok s
  | childHash :: rest, s =>
    match s.mapTx.find? childHash with
    | none => .error "childIter != mapTx.end()"
    | some _ =>
      linkChildren setAlreadyIncluded it rest
        (if childHash ∈ setAlreadyIncluded then s
        else (s.updateChild it childHash true).updateParent childHash it true)

/-- The loop of `UpdateTransactionsFromBlock`, over the transactions from the last to the
first. -/
def updateFromBlockLoop (A : Arithmetic) (setAlreadyIncluded : Finset Uint256) :
    List Uint256 → BlockPass → Except String BlockPass
  | [], p => .ok p
  | hash :: rest, p =>
    match p.pool.mapTx.find? hash with
    | none => updateFromBlockLoop A setAlreadyIncluded rest p
    | some _ =>
      match linkChildren setAlreadyIncluded hash (p.pool.spendersOf hash) p.pool with
      | .error expr => .error expr
      | .ok s =>
        match updateForDescendants A setAlreadyIncluded hash { p with pool := s } with
        | .error expr => .error expr
        | .ok p => updateFromBlockLoop A setAlreadyIncluded rest p

/-- The loop that removes what has gone over the limits. -/
def removeMarked (A : Arithmetic) : List Uint256 → CTxMemPool → Except String CTxMemPool
  | [], s => .ok s
  | txid :: rest, s =>
    match s.mapTx.find? txid with
    | none => removeMarked A rest s
    | some e =>
      match s.removeRecursive A e.tx with
      | .error expr => .error expr
      | .ok s => removeMarked A rest s

def updateTransactionsFromBlock (A : Arithmetic) (s : CTxMemPool)
    (vHashesToUpdate : List Uint256) : Except String CTxMemPool :=
  match updateFromBlockLoop A vHashesToUpdate.toFinset vHashesToUpdate.reverse ⟨s, .empty, ∅⟩ with
  | .error expr => .error expr
  | .ok p => removeMarked A (p.pool.mapTx.keysIn p.descendantsToRemove) p.pool

end CTxMemPool
end Lithium
