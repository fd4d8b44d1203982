import Cbcl.ReplicaModel
import Cbcl.TypedAddrProofs

/-!
# Identities of versions and acts

A version is known by the digest of its books, a genesis version by the digest of its account, an
act by its content address.  Where the digest function does not collide on the inputs of a log,
equal identities mean equal books, and no version takes a genesis version's place.
-/

namespace CbclQuorum

open CbclMessage CbclAct CbclCanonical CbclTypedAddr CbclTreeMap

-- ── Spelling ────

/-- Digests determine what they are the spelling of. -/
theorem sha256_eq_of_digest {sha256 : Octets → Digest} {xs ys : List SExpr}
    (h : digest sha256 xs = digest sha256 ys) :
    sha256 (encode (.list xs)) = sha256 (encode (.list ys)) := by
  unfold digest at h
  exact hex32_injective (String.append_right_inj _ |>.mp h)

/-- The octets of a list determine it. -/
theorem encode_list_injective {xs ys : List SExpr} (h : encode (.list xs) = encode (.list ys)) :
    xs = ys := by
  have hsplit := encode_split (.list xs) (.list ys) [] [] (by rw [h])
  exact SExpr.list.inj hsplit.1

theorem textExpr_injective {s t : String} (h : textExpr s = textExpr t) : s = t := by
  injection h with h
  injection h

theorem stringsExpr_injective {xs ys : BTreeSet String} (h : stringsExpr xs = stringsExpr ys) :
    xs = ys := by
  injection h with h
  refine toList_injective (List.map_injective_iff.mpr ?_ h)
  intro s t hst
  exact textExpr_injective hst

theorem natText_injective {n m : Nat} (h : toString n = toString m) : n = m := by
  apply decimal_injective
  rw [decimal_eq, decimal_eq, h]

theorem intText_injective {n m : Int} (h : toString n = toString m) : n = m := by
  apply signedDecimal_injective
  rw [signedDecimal_eq, signedDecimal_eq, h]

theorem phaseTag_injective {p q : VersionPhase} (h : p.tag = q.tag) : p = q := by
  cases p <;> cases q <;> first | rfl | exact absurd h (by decide)

/-- What an identity binds determines the books. -/
theorem parts_injective {m m' : VersionManifest} {context : String}
    (h : m.parts context = m'.parts context) : m = m' := by
  unfold VersionManifest.parts at h
  simp only [List.cons.injEq, true_and, and_true] at h
  obtain ⟨hphase, haccount, hparents, hrank, hheld, hrefunded, hcredited, hrights, hheadroom⟩ := h
  obtain ⟨phase, account, parents, rank, held, refunded, credited, rights, headroom⟩ := m
  obtain ⟨phase', account', parents', rank', held', refunded', credited', rights', headroom'⟩ := m'
  dsimp only at *
  rw [phaseTag_injective (textExpr_injective hphase), textExpr_injective haccount,
    stringsExpr_injective hparents, natText_injective (textExpr_injective hrank),
    stringsExpr_injective hheld, stringsExpr_injective hrefunded,
    stringsExpr_injective hcredited, intText_injective (textExpr_injective hrights),
    intText_injective (textExpr_injective hheadroom)]

/-- A version's parts are no genesis version's. -/
theorem parts_ne_rootParts (m : VersionManifest) (context account : String) :
    m.parts context ≠ rootParts context account := by
  intro h
  exact absurd (congrArg List.length h) (by simp [VersionManifest.parts, rootParts])

-- ── Collisions ────

/-- The books an event is about. -/
def Event.manifests : Event → List VersionManifest
  | .version v => [v.manifest]
  | .ownedProposal request => [request.version.manifest]
  | .sealOwned request => [request.version.manifest]
  | _ => []

/-- The digest inputs of the versions of a log and of the genesis versions. -/
def identityInputs (c : Context) (log : List Event) : Set Octets :=
  {x | (∃ a ∈ c.initial, x = encode (.list (rootParts c.id a))) ∨
    ∃ e ∈ log, ∃ m ∈ e.manifests, x = encode (.list (m.parts c.id))}

/-- The digest function does not collide on the identities of a log. -/
def CollisionFree (c : Context) (log : List Event) : Prop :=
  Set.InjOn c.sha256 (identityInputs c log)

section Collisions

variable {c : Context} {log : List Event}

/-- A shorter log has fewer inputs. -/
theorem CollisionFree.mono {log' : List Event} (h : CollisionFree c log')
    (hsub : ∀ e ∈ log, e ∈ log') : CollisionFree c log := by
  refine Set.InjOn.mono ?_ h
  intro x hx
  rcases hx with hroot | ⟨e, he, hm⟩
  · exact Or.inl hroot
  · exact Or.inr ⟨e, hsub e he, hm⟩

/-- Equal identities mean equal books. -/
theorem CollisionFree.manifest_eq (h : CollisionFree c log) {e e' : Event} (he : e ∈ log)
    (he' : e' ∈ log) {m m' : VersionManifest} (hm : m ∈ e.manifests) (hm' : m' ∈ e'.manifests)
    (hid : c.versionId m = c.versionId m') : m = m' := by
  have hin := h (Or.inr ⟨e, he, m, hm, rfl⟩) (Or.inr ⟨e', he', m', hm', rfl⟩)
    (sha256_eq_of_digest hid)
  exact parts_injective (encode_list_injective hin)

/-- No version has the identity of a genesis version. -/
theorem CollisionFree.not_root (h : CollisionFree c log) {e : Event} (he : e ∈ log)
    {m : VersionManifest} (hm : m ∈ e.manifests) : c.versionId m ∉ c.root_manifests := by
  intro hmem
  obtain ⟨root, hroot⟩ := Option.isSome_iff_exists.mp
    (Std.ExtTreeMap.isSome_getElem?_iff_mem.mpr hmem)
  obtain ⟨a, b, ha, hid, -⟩ := c.root_manifest _ root hroot
  obtain ⟨hinit, hdigest⟩ := (c.root_id_iff a _).mp hid
  have hin := h (Or.inr ⟨e, he, m, hm, rfl⟩) (Or.inl ⟨a, hinit, rfl⟩)
    (sha256_eq_of_digest hdigest)
  exact parts_ne_rootParts m c.id a (encode_list_injective hin)

end Collisions

end CbclQuorum
