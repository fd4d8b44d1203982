import Cbcl.ThreadedStoreModel
import Cbcl.VerifierModel
import Cbcl.WorklistProofs

/-!
# Frontiers, closures and bundles

The graph walks of `store.rs` over the citations of a thread: the frontier (stored hashes no
stored message cites), the causal closure of a hash, and `CausalClosureBundle`, the closure
of a target as a transferable value in topological order, with its check against a protocol.
All of them read citations with `Message::caused_by`, which answers for a simple message only.
-/

namespace CbclBundle

open CbclMessage CbclProtocol CbclStore CbclThreadedStore CbclVerifier CbclWorklist

-- ── Walks over a thread ────

/-- The hashes a stored message cites, as the walks read them. -/
def citations (store : MessageStore) (thread : ThreadId) (hash : ContentHash) :
    List ContentHash :=
  ((store.lookupInThread hash thread).map fun m => citedHashes m.causedBy).getD []

/-- A hash outside the support of a store cites nothing. -/
theorem citations_support (store : MessageStore) (thread : ThreadId) :
    ∀ h, h ∉ store.hashes → citations store thread h = [] := by
  intro h hh
  unfold citations
  rw [(store.finite h thread hh).1]
  rfl

/-- Stored hashes of a thread that no stored message references. -/
def frontier (s : ThreadedMessageStore) (thread : ThreadId) : List ContentHash :=
  ((s.messages thread).map Prod.fst).filter fun h => h ∉ (s.referenced[thread]?).getD ∅

/-- The causal closure of a hash: pop, skip what was visited, push the citations not visited.
    Nothing starts from a hash that is not stored in the thread. -/
def causalClosure (s : ThreadedMessageStore) (hash : ContentHash) (thread : ThreadId) :
    List ContentHash :=
  let cites := citations s.toStore thread
  let stack := if s.contains hash thread then [hash] else []
  (exploreWith (pushUnseen cites) (potential cites s.toStore.hashes stack []) stack []).reverse

-- ── Extraction ────

/-- Errors of closure extraction. -/
inductive ClosureError where
  | targetNotFound
  | incompleteStore (missing_hashes : List ContentHash)
deriving DecidableEq

/-- Errors of bundle verification. -/
inductive BundleVerificationError where
  | hashMismatch (hash expected computed : ContentHash)
  | danglingReference (caused_by : String)
  | causalViolation (v : CausalViolation)
deriving DecidableEq

/-- A transferable, verifiable part of a message store. -/
structure CausalClosureBundle where
  target : ContentHash
  thread : ThreadId
  messages : List (ContentHash × Message)
deriving DecidableEq

/-- What the first phase of an extraction has found. -/
structure Collected where
  visited : List ContentHash
  hash_to_msg : List (ContentHash × Message)
  missing : List ContentHash

/-- The first phase: depth-first collection of the messages below the stack. -/
def collect (store : MessageStore) (thread : ThreadId) :
    Nat → List ContentHash → Collected → Collected
  | 0, _, c => c
  | _ + 1, [], c => c
  | fuel + 1, current :: stack, c =>
      if current ∈ c.visited then collect store thread fuel stack c
      else
        let visited := current :: c.visited
        match store.lookupInThread current thread with
        | none =>
            collect store thread fuel stack
              { c with visited := visited, missing := c.missing ++ [current] }
        | some m =>
            collect store thread fuel
              (((citedHashes m.causedBy).filter (· ∉ visited)).reverse ++ stack)
              { c with visited := visited, hash_to_msg := c.hash_to_msg ++ [(current, m)] }

/-- The first phase from a target, with as many steps as the stack can take. -/
def collectFrom (store : MessageStore) (thread : ThreadId) (target : ContentHash) : Collected :=
  collect store thread (potential (citations store thread) store.hashes [target] []) [target]
    ⟨[], [], []⟩

/-- In-degrees and successors of the collected messages, by index. -/
structure Edges where
  in_degree : List Nat
  successors : List (List Nat)

/-- An edge from a cited message to the citing one. -/
def Edges.add (idx : Nat) (e : Edges) (pred_idx : Nat) : Edges where
  in_degree := e.in_degree.modify idx (· + 1)
  successors := e.successors.modify pred_idx (· ++ [idx])

/-- The edges of all collected messages. -/
def buildEdges (hash_to_msg : List (ContentHash × Message)) : Edges :=
  hash_to_msg.zipIdx.foldl (fun e (entry, idx) =>
    ((citedHashes entry.2.causedBy).filterMap fun p =>
      hash_to_msg.findIdx? fun x => x.1 = p).foldl (Edges.add idx) e)
    ⟨List.replicate hash_to_msg.length 0, List.replicate hash_to_msg.length []⟩

/-- The hash at an index. -/
def hashAt (hash_to_msg : List (ContentHash × Message)) (i : Nat) : ContentHash :=
  ((hash_to_msg[i]?).map Prod.fst).getD ""

/-- The bisection of `partition_point`: `size` elements from `base` on are left. -/
def bisect (holds : Nat → Bool) (xs : List Nat) : Nat → Nat → Nat → Nat
  | 0, base, _ => base
  | fuel + 1, base, size =>
      if size ≤ 1 then base
      else
        let half := size / 2
        bisect holds xs fuel
          (if ((xs[base + half]?).map holds).getD false then base + half else base) (size - half)

/-- The index of the first element that fails a test, by bisection.  The result is meaningful
    on lists partitioned by the test only. -/
def partitionPoint (holds : Nat → Bool) (xs : List Nat) : Nat :=
  if xs.isEmpty then 0
  else
    let base := bisect holds xs xs.length 0 xs.length
    if ((xs[base]?).map holds).getD false then base + 1 else base

/-- Take one edge off a successor; queue it when none is left. -/
def releaseSuccessor (hash_to_msg : List (ContentHash × Message)) (acc : List Nat × List Nat)
    (succ : Nat) : List Nat × List Nat :=
  let in_degree := acc.1.modify succ (· - 1)
  if in_degree[succ]? = some 0 then
    let pos := partitionPoint
      (fun x => decide (hashAt hash_to_msg succ < hashAt hash_to_msg x)) acc.2
    (in_degree, acc.2.insertIdx pos succ)
  else (in_degree, acc.2)

/-- Kahn's loop: the last entry of the queue is next. -/
def kahnLoop (hash_to_msg : List (ContentHash × Message)) (successors : List (List Nat)) :
    Nat → List Nat → List Nat → List Nat → List Nat
  | 0, _, _, sorted => sorted
  | fuel + 1, in_degree, queue, sorted =>
      match queue.getLast? with
      | none => sorted
      | some node =>
          let next := ((successors[node]?).getD []).foldl (releaseSuccessor hash_to_msg)
            (in_degree, queue.dropLast)
          kahnLoop hash_to_msg successors fuel next.1 next.2 (sorted ++ [node])

/-- The second phase: indices in topological order.  An index enters the queue once, when its
    last edge is taken off, so the number of messages bounds the steps. -/
def sortedIndices (hash_to_msg : List (ContentHash × Message)) : List Nat :=
  let edges := buildEdges hash_to_msg
  let roots := (List.range hash_to_msg.length).filter fun i => edges.in_degree[i]? = some 0
  let queue := roots.insertionSort fun a b => hashAt hash_to_msg a ≤ hashAt hash_to_msg b
  kahnLoop hash_to_msg edges.successors hash_to_msg.length edges.in_degree queue []

namespace CausalClosureBundle

/-- Extract the causal closure of a target from a store. -/
def extract (target : ContentHash) (thread : ThreadId) (store : MessageStore) :
    Except ClosureError CausalClosureBundle :=
  match store.lookupInThread target thread with
  | none => .error .targetNotFound
  | some _ =>
      let collected := collectFrom store thread target
      if collected.missing ≠ [] then .error (.incompleteStore collected.missing)
      else .ok ⟨target, thread, (sortedIndices collected.hash_to_msg).eraseDups.filterMap
        fun i => collected.hash_to_msg[i]?⟩

-- ── Verification ────

/-- Completeness: every cited hash is the hash of a message of the bundle.  No store is needed. -/
def verifyCompleteness (b : CausalClosureBundle) : Except (List BundleVerificationError) Unit :=
  let known := b.messages.map Prod.fst
  let errors := b.messages.flatMap fun (_, m) =>
    ((citedHashes m.causedBy).filter (· ∉ known)).map .danglingReference
  if errors = [] then .ok () else .error errors

/-- The temporary store of a bundle: its messages, filed in order under the bundle's thread. -/
def tempStore (b : CausalClosureBundle) : ThreadedMessageStore :=
  b.messages.foldl (fun s (hash, m) => (s.append hash b.thread m).2) .new

/-- The verdict on one message of a bundle, as the bundle check reads the message. -/
def verdict (b : CausalClosureBundle) (protocol : CausalProtocol) (m : Message) :
    VerificationResult :=
  verifyCausal ((m.performative.map Performative.name).getD "") m.causedBy b.tempStore.toStore
    protocol b.thread

/-- Causal validity of every message of a bundle against a protocol. -/
def verifyCausal (b : CausalClosureBundle) (protocol : CausalProtocol) :
    Except (List BundleVerificationError) Unit :=
  let errors := b.messages.filterMap fun (_, m) =>
    match b.verdict protocol m with
    | .violation v => some (.causalViolation v)
    | _ => none
  if errors = [] then .ok () else .error errors

-- ── Merging ────

/-- How many messages a merge added, and how many the store knew. -/
structure MergeResult where
  added : Nat
  deduplicated : Nat
deriving DecidableEq

/-- File one message of a bundle. -/
def mergeMessage (thread : ThreadId) (acc : MergeResult × ThreadedMessageStore)
    (entry : ContentHash × Message) : MergeResult × ThreadedMessageStore :=
  let (isNew, s) := acc.2.append entry.1 thread entry.2
  if isNew then ({ acc.1 with added := acc.1.added + 1 }, s)
  else ({ acc.1 with deduplicated := acc.1.deduplicated + 1 }, s)

/-- File the messages of a bundle in a store, in order. -/
def merge (b : CausalClosureBundle) (s : ThreadedMessageStore) :
    MergeResult × ThreadedMessageStore := b.messages.foldl (mergeMessage b.thread) (⟨0, 0⟩, s)

end CausalClosureBundle

end CbclBundle
