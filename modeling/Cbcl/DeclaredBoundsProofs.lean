import Cbcl.DialectParserModel
import Cbcl.RegistryProofs

/-!
# The bounds a definition declares

A definition declares resource bounds in its `:resource-requirements` clauses.  The reader narrows
each value to 32 bits before `isValid` sees it, and each clause starts from the defaults again.  So
the bound that an installed dialect has is the declared one exactly if the value fits and no later
clause forgets it.
-/

namespace CbclDeclaredBounds

open CbclMessage CbclProtocol CbclShape CbclDialect CbclDialectParser CbclInstall CbclCanonical
open CbclRegistry CbclTypedAddr CbclExcept
open CbclRole hiding Dialect PerformativeDef

-- ── What a form declares ────

/-- A bound that a dialect declares. -/
inductive Bound where
  | maxDepth | maxExpansionSize | verificationTime
deriving DecidableEq

namespace Bound

/-- The name of a bound in a requirement. -/
def name : Bound → String
  | .maxDepth => "max-depth"
  | .maxExpansionSize => "max-expansion-size"
  | .verificationTime => "verification-time"

/-- The value that a record of bounds gives. -/
def value (bounds : ResourceBounds) : Bound → UInt32
  | .maxDepth => bounds.max_depth
  | .maxExpansionSize => bounds.max_expansion_size
  | .verificationTime => bounds.verification_time_ms

/-- The greatest admitted value. -/
def limit : Bound → Int
  | .maxDepth => 64
  | .maxExpansionSize => 8192
  | .verificationTime => 1000

/-- The value a requirement `(name n)` declares. -/
def entry (b : Bound) : SExpr → Option Int
  | .list [.atom (.symbol key), .atom (.num n)] => if key = b.name then some n.toInt else none
  | _ => none

/-- The values a list of requirements declares, in order. -/
def entries (b : Bound) (items : List SExpr) : List Int := items.filterMap b.entry

end Bound

/-- The requirements of a clause, if it is a clause of requirements. -/
def requirements : SExpr → Option (List SExpr)
  | .list (.atom (.keyword kw) :: .list items :: _) =>
      if kw = "resource-requirements" then some items else none
  | _ => none

/-- The clauses of a definition. -/
def clausesOf : SExpr → List SExpr
  | .list (_ :: _ :: _ :: _ :: clauses) => clauses
  | _ => []

/-- The lists of requirements of a definition, clause by clause. -/
def requirementLists (form : SExpr) : List (List SExpr) := (clausesOf form).filterMap requirements

/-- The values a definition declares for a bound, in order. -/
def declared (b : Bound) (form : SExpr) : List Int := (requirementLists form).flatMap b.entries

/-- The bounds a clause starts from. -/
def defaultBounds : ResourceBounds := ⟨16, 1024, 50⟩

/-- A value that the reading keeps: it has 32 bits, and if the last clause of requirements leaves
    the bound out, the value is the default. -/
def Kept (b : Bound) (form : SExpr) (n : Int) : Prop :=
  (0 ≤ n ∧ n < 2 ^ 32) ∧
    ∀ items, (requirementLists form).getLast? = some items → b.entries items = [] →
      n = ((b.value defaultBounds).toNat : Int)

-- ── What the reader keeps ────

/-- An item that is not of the form `(key number)` is passed over. -/
theorem addResource_other {item : SExpr}
    (h : ¬ ∃ key n, item = .list [.atom (.symbol key), .atom (.num n)]) (bounds : ResourceBounds) :
    addResource bounds item = bounds := by
  unfold addResource
  split
  · exact absurd ⟨_, _, rfl⟩ h
  · rfl

theorem entry_other {item : SExpr}
    (h : ¬ ∃ key n, item = .list [.atom (.symbol key), .atom (.num n)]) (b : Bound) :
    b.entry item = none := by
  unfold Bound.entry
  split
  · exact absurd ⟨_, _, rfl⟩ h
  · rfl

/-- One requirement sets the bound it names. -/
theorem value_addResource (b : Bound) (bounds : ResourceBounds) (item : SExpr) :
    b.value (addResource bounds item) =
      ((b.entry item).map UInt32.ofInt).getD (b.value bounds) := by
  by_cases hpair : ∃ key n, item = .list [.atom (.symbol key), .atom (.num n)]
  · obtain ⟨key, n, rfl⟩ := hpair
    by_cases hdepth : key = "max-depth"
    · subst hdepth
      cases b <;> rfl
    by_cases hsize : key = "max-expansion-size"
    · subst hsize
      cases b <;> rfl
    by_cases htime : key = "verification-time"
    · subst htime
      cases b <;> rfl
    have hother : key ≠ b.name := by cases b <;> assumption
    simp only [addResource, Bound.entry, if_neg hdepth, if_neg hsize, if_neg htime, if_neg hother,
      Option.map_none, Option.getD_none]
  · rw [addResource_other hpair, entry_other hpair]
    rfl

/-- Some requirements set a bound to the last value they declare for it. -/
theorem value_addResources (b : Bound) (items : List SExpr) (bounds : ResourceBounds) :
    b.value (items.foldl addResource bounds) =
      ((b.entries items).getLast?.map UInt32.ofInt).getD (b.value bounds) := by
  induction items generalizing bounds with
  | nil => rfl
  | cons item items ih =>
      rw [List.foldl_cons, ih, value_addResource]
      unfold Bound.entries
      cases hentry : b.entry item with
      | none => rw [List.filterMap_cons_none hentry]; rfl
      | some n =>
          rw [List.filterMap_cons_some hentry, List.getLast?_cons]
          cases (items.filterMap b.entry).getLast? <;> rfl

/-- Another keyword clause leaves the bounds alone. -/
theorem parseKeywordClause_resources {acc acc' : Clauses} {kw : String} {args : List SExpr}
    {clause : SExpr} (hkw : kw ≠ "resource-requirements")
    (h : parseKeywordClause acc kw args clause = .ok acc') : acc'.resources = acc.resources := by
  unfold parseKeywordClause at h
  rw [if_neg hkw] at h
  repeat' split at h
  all_goals first
    | (cases h; done)
    | (injection h with h; rw [← h])
    | (obtain ⟨_, -, hacc⟩ := bind_ok_iff.mp h; injection hacc with hacc; rw [← hacc])

/-- A clause that no keyword heads leaves the bounds alone. -/
theorem parseClause_other {acc acc' : Clauses} {head : SExpr} {args : List SExpr}
    (hhead : ∀ kw, head ≠ .atom (.keyword kw))
    (h : parseClause acc (.list (head :: args)) = .ok acc') : acc'.resources = acc.resources := by
  unfold parseClause at h
  split at h
  · rename_i heq
    injection heq with heq
    injection heq with heq _
    exact absurd heq (hhead _)
  · rename_i heq
    injection heq with heq
    injection heq with hhead' hargs
    repeat' split at h
    all_goals first
      | (cases h; done)
      | (injection h with h; rw [← h])
      | (obtain ⟨_, -, hacc⟩ := bind_ok_iff.mp h; injection hacc with hacc; rw [← hacc])
  · exact nomatch h

/-- A clause replaces the bounds if it is one of requirements, and keeps them otherwise. -/
theorem parseClause_resources {acc acc' : Clauses} {clause : SExpr}
    (h : parseClause acc clause = .ok acc') :
    acc'.resources =
      ((requirements clause).map (·.foldl addResource defaultBounds)).getD acc.resources := by
  match clause, h with
  | .atom _, h => exact nomatch h
  | .list [], h => exact nomatch h
  | .list (.list items :: args), h =>
      exact parseClause_other (by simp) h
  | .list (.atom a :: args), h =>
      cases a with
      | keyword kw =>
          have h : parseKeywordClause acc kw args (.list (.atom (.keyword kw) :: args)) = .ok acc' :=
            h
          by_cases hkw : kw = "resource-requirements"
          · subst hkw
            match args, h with
            | [], h => exact nomatch h
            | .atom _ :: _, h => exact nomatch h
            | .list items :: _, h =>
                obtain ⟨resources, hread, hacc⟩ := bind_ok_iff.mp h
                injection hread with hread
                injection hacc with hacc
                rw [← hacc, ← hread]
                rfl
          · have hnone : requirements (.list (.atom (.keyword kw) :: args)) = none := by
              match args with
              | [] => rfl
              | .atom _ :: _ => rfl
              | .list items :: _ => exact if_neg hkw
            rw [hnone]
            exact parseKeywordClause_resources hkw h
      | symbol s => exact parseClause_other (by simp) h
      | str s => exact parseClause_other (by simp) h
      | num n => exact parseClause_other (by simp) h
      | bool v => exact parseClause_other (by simp) h

/-- After some clauses the bounds are those of the last list of requirements. -/
theorem parseClauses_resources {clauses : List SExpr} {acc acc' : Clauses}
    (h : clauses.foldlM parseClause acc = .ok acc') :
    acc'.resources = ((clauses.filterMap requirements).getLast?.map
      (·.foldl addResource defaultBounds)).getD acc.resources := by
  induction clauses generalizing acc with
  | nil =>
      injection h with h
      rw [← h]
      rfl
  | cons clause clauses ih =>
      obtain ⟨acc₁, hclause, hrest⟩ := bind_ok_iff.mp h
      rw [ih hrest, parseClause_resources hclause]
      cases hreq : requirements clause with
      | none => rw [List.filterMap_cons_none hreq]; rfl
      | some items =>
          rw [List.filterMap_cons_some hreq, List.getLast?_cons]
          cases (clauses.filterMap requirements).getLast? <;> rfl

theorem insertReplaces_resources (d : Dialect) : (insertReplaces d).resources = d.resources := by
  unfold insertReplaces
  cases d.state with
  | none => rfl
  | some clause => rfl

theorem assemble_resources {name : String} {parents : List String} {author : Option String}
    {c : Clauses} {d : Dialect} (h : assemble name parents author c = .ok d) :
    d.resources = c.resources := by
  unfold assemble at h
  split at h
  · exact nomatch h
  · injection h with h
    rw [← h, insertReplaces_resources]

/-- **The bounds of a parsed definition** are those of its last list of requirements, from the
    defaults. -/
theorem parseDialect_resources {form : SExpr} {d : Dialect} (h : parseDialect form = .ok d) :
    d.resources = ((requirementLists form).getLast?.map
      (·.foldl addResource defaultBounds)).getD defaultBounds := by
  match form, h with
  | .atom _, h => exact nomatch h
  | .list [], h => exact nomatch h
  | .list (head :: items), h =>
      simp only [parseDialect] at h
      by_cases hdefine : (!isSymbol "define" head) = true
      · rw [if_pos hdefine] at h
        exact nomatch h
      rw [if_neg hdefine] at h
      match items, h with
      | [], h => exact nomatch h
      | [_], h => exact nomatch h
      | [_, _], h => exact nomatch h
      | name :: parents :: author :: clauses, h =>
          obtain ⟨_, -, h⟩ := bind_ok_iff.mp h
          obtain ⟨_, -, h⟩ := bind_ok_iff.mp h
          obtain ⟨_, -, h⟩ := bind_ok_iff.mp h
          obtain ⟨c, hclauses, h⟩ := bind_ok_iff.mp h
          rw [assemble_resources h, parseClauses_resources hclauses]
          rfl

-- ── What an installation keeps ────

section Installation

variable {sha256 : Octets → Digest} {r : DialectRegistry} {call : Call} {form : SExpr} {e : Dialect}

/-- An accepted call adds its dialect, checked. -/
theorem perform_accepted (h : (perform sha256 r call).1 = none) :
    Checked r call.dialect ∧ (perform sha256 r call).2 = r.push (installed sha256 call.dialect) := by
  cases call with
  | install d =>
      rw [perform_install] at h ⊢
      cases hrun : install sha256 r d with
      | error e => rw [hrun] at h; exact nomatch h
      | ok r' =>
          obtain ⟨hchecked, -, rfl⟩ := install_ok_iff.mp hrun
          exact ⟨hchecked, rfl⟩
  | installWithSigner d signer =>
      rw [perform_signed] at h ⊢
      cases hrun : installWithSigner sha256 r d signer with
      | error e => rw [hrun] at h; exact nomatch h
      | ok result =>
          obtain ⟨r4, r'⟩ := result
          obtain ⟨hchecked, -, -, rfl⟩ := installWithSigner_ok_iff.mp hrun
          exact ⟨hchecked, rfl⟩

theorem installed_resources (sha256 : Octets → Digest) (d : Dialect) :
    (installed sha256 d).resources = d.resources := by
  obtain ⟨mode, hash, -, heq⟩ := installed_eq sha256 d
  rw [heq]

/-- Every bound of checked resources is within its limits. -/
theorem value_admitted {bounds : ResourceBounds} (h : isValid bounds = true) (b : Bound) :
    0 < ((b.value bounds).toNat : Int) ∧ ((b.value bounds).toNat : Int) ≤ b.limit := by
  simp only [isValid, Bool.and_eq_true, decide_eq_true_eq, gt_iff_lt, UInt32.lt_iff_toNat_lt,
    UInt32.le_iff_toNat_le] at h
  obtain ⟨⟨⟨⟨⟨hd, hd'⟩, hs⟩, hs'⟩, ht⟩, ht'⟩ := h
  cases b with
  | maxDepth => exact ⟨Int.ofNat_lt.mpr hd, Int.ofNat_le.mpr hd'⟩
  | maxExpansionSize => exact ⟨Int.ofNat_lt.mpr hs, Int.ofNat_le.mpr hs'⟩
  | verificationTime => exact ⟨Int.ofNat_lt.mpr ht, Int.ofNat_le.mpr ht'⟩

/-- Narrowing an integer to 32 bits keeps it exactly if it has 32 bits. -/
theorem narrowed_eq_iff (n : Int) : ((UInt32.ofInt n).toNat : Int) = n ↔ 0 ≤ n ∧ n < 2 ^ 32 := by
  have hmod : ((UInt32.ofInt n).toNat : Int) = n % 2 ^ 32 := by
    rw [UInt32.ofInt, UInt32.toNat_ofNat']
    omega
  rw [hmod]
  omega

/-- The last declared value is the last of the last clause that declares the bound. -/
theorem getLast?_flatMap_entries (b : Bound) (lists : List (List SExpr)) (items : List SExpr) :
    ((lists ++ [items]).flatMap b.entries).getLast? =
      (b.entries items).getLast?.or (lists.flatMap b.entries).getLast? := by
  rw [List.flatMap_append, List.flatMap_singleton, List.getLast?_append]

/-- **What becomes of a declared bound.**  The installed dialect has the last declared value, within
    the limits, exactly if the value has 32 bits and no later clause forgets it. -/
theorem declared_bound_iff (b : Bound) {n : Int} (hparse : parseDialect form = .ok call.dialect)
    (hcall : (perform sha256 r call).1 = none)
    (he : (perform sha256 r call).2.dialects.getLast? = some e)
    (hn : (declared b form).getLast? = some n) :
    (((b.value e.resources).toNat : Int) = n ∧ 0 < n ∧ n ≤ b.limit) ↔ Kept b form n := by
  obtain ⟨hchecked, hpush⟩ := perform_accepted hcall
  have hresources : e.resources = call.dialect.resources := by
    rw [hpush] at he
    have hlast : (r.dialects ++ [installed sha256 call.dialect]).getLast? = some e := he
    rw [List.getLast?_concat] at hlast
    injection hlast with hlast
    rw [← hlast, installed_resources]
  have hadmitted := value_admitted (hresources ▸ hchecked.r2) b
  have hsame : (((b.value e.resources).toNat : Int) = n ∧ 0 < n ∧ n ≤ b.limit) ↔
      ((b.value e.resources).toNat : Int) = n :=
    ⟨And.left, fun h => ⟨h, h ▸ hadmitted⟩⟩
  rw [hsame, hresources, parseDialect_resources hparse]
  -- the last clause of requirements decides
  unfold declared at hn
  unfold Kept
  rcases List.eq_nil_or_concat (requirementLists form) with hnil | ⟨lists, items, hlists⟩
  · rw [hnil] at hn
    exact nomatch hn
  rw [List.concat_eq_append] at hlists
  rw [hlists, getLast?_flatMap_entries] at hn
  rw [hlists, List.getLast?_concat, Option.map_some, Option.getD_some, value_addResources]
  cases hentries : (b.entries items).getLast? with
  | some m =>
      rw [hentries, Option.some_or] at hn
      injection hn with hn
      subst hn
      rw [Option.map_some, Option.getD_some, narrowed_eq_iff]
      refine ⟨fun h => ⟨h, fun items' heq hnone => ?_⟩, And.left⟩
      injection heq with heq
      subst heq
      rw [hnone] at hentries
      exact nomatch hentries
  | none =>
      rw [Option.map_none, Option.getD_none]
      constructor
      · intro hdefault
        refine ⟨?_, fun items' _ _ => hdefault.symm⟩
        rw [← hdefault]
        exact ⟨Int.natCast_nonneg _, Int.ofNat_lt.mpr (UInt32.toNat_lt _)⟩
      · rintro ⟨-, hdefault⟩
        exact (hdefault items rfl (List.getLast?_eq_none_iff.mp hentries)).symm

end Installation

-- ── A value that the narrowing changes ────

/-- A definition of nothing but one clause of requirements. -/
def requiring (items : List SExpr) : SExpr :=
  .list [.atom (.symbol "define"), .atom (.symbol "deep"), .list [], .atom (.symbol "alice"),
    .list [.atom (.keyword "resource-requirements"), .list items]]

/-- A requirement. -/
def requirement (name : String) (n : Int64) : SExpr :=
  .list [.atom (.symbol name), .atom (.num n)]

/-- The dialect of such a definition. -/
def boundedDialect (resources : ResourceBounds) : Dialect :=
  { baseDialect with name := "deep", author := some "alice", performatives := [], resources }

/-- Eight levels are declared, and eight are installed. -/
theorem declared_bound_eight :
    (((Bound.maxDepth.value (installed CbclSha256.sha256 (boundedDialect ⟨8, 1024, 50⟩)).resources
      ).toNat : Int) = 8 ∧ 0 < (8 : Int) ∧ (8 : Int) ≤ Bound.maxDepth.limit) ↔
      Kept .maxDepth (requiring [requirement "max-depth" 8]) 8 := by
  refine @declared_bound_iff CbclSha256.sha256 .new (.install (boundedDialect ⟨8, 1024, 50⟩)) _ _
    .maxDepth 8 rfl (by decide +kernel) ?_ (by decide)
  rw [(perform_accepted (by decide +kernel)).2]
  exact List.getLast?_concat ..

/-- **A declaration of 2^32 + 8 levels is installed as one of eight.** -/
theorem declared_bound_narrowed :
    ¬ ∀ (b : Bound) (form : SExpr) (call : Call) (e : Dialect) (n : Int),
      parseDialect form = .ok call.dialect →
      (perform CbclSha256.sha256 .new call).1 = none →
      (perform CbclSha256.sha256 .new call).2.dialects.getLast? = some e →
      (declared b form).getLast? = some n → ((b.value e.resources).toNat : Int) = n := by
  intro hclaim
  have hlast : (perform CbclSha256.sha256 .new
      (.install (boundedDialect ⟨8, 1024, 50⟩))).2.dialects.getLast? =
      some (installed CbclSha256.sha256 (boundedDialect ⟨8, 1024, 50⟩)) := by
    rw [(perform_accepted (by decide +kernel)).2]
    exact List.getLast?_concat ..
  have hvalue := hclaim .maxDepth (requiring [requirement "max-depth" 4294967304])
    (.install (boundedDialect ⟨8, 1024, 50⟩)) _ 4294967304 rfl (by decide +kernel) hlast (by decide)
  rw [installed_resources] at hvalue
  exact absurd hvalue (by decide)

end CbclDeclaredBounds
