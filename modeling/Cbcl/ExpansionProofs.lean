import Cbcl.EvaluatorModel

/-!
# What a template expansion may use

The language of templates has conditionals, sequences, literals and plain expressions.  Its meaning
is a relation between a form, its expansion, and the number of forms evaluated one inside another.
`expand_template` (`template.rs`) charges one level whatever that number is, and compares the size
of the expansion with the bound after it was narrowed to 32 bits.
-/

namespace CbclExpansion

open CbclMessage CbclShape CbclDialect CbclEvaluator

variable {bindings : Bindings}

-- ── The meaning of templates ────

/-- The test of a clause that is taken. -/
def Taken (bindings : Bindings) (test : SExpr) : Bool :=
  isSymbol "else" test || evalCondition bindings test

/-- The body of the first clause whose test is taken. -/
inductive Selects (bindings : Bindings) : List SExpr → SExpr → Prop where
  | here {test body : SExpr} {rest : List SExpr} : Taken bindings test = true →
      Selects bindings (.list [test, body] :: rest) body
  | there {test other body : SExpr} {rest : List SExpr} : Taken bindings test = false →
      Selects bindings rest body → Selects bindings (.list [test, other] :: rest) body

mutual
/-- `Evaluates bindings t r n`: the form `t` expands to `r` with `n` forms one inside another. -/
inductive Evaluates (bindings : Bindings) : SExpr → ExpandedTemplate → Nat → Prop where
  | atom (a : Atom) : Evaluates bindings (.atom a) (.single (resolveValue bindings (.atom a))) 1
  | empty : Evaluates bindings (.list []) (.single (.list [])) 1
  | literal {head body : SExpr} : isSymbol "literal" head = true →
      Evaluates bindings (.list [head, body]) (.single (substituteExpr bindings body)) 1
  | cond {head body : SExpr} {clauses : List SExpr} {r : ExpandedTemplate} {n : Nat} :
      isSymbol "literal" head = false → isSymbol "cond" head = true →
      Selects bindings clauses body → Evaluates bindings body r n →
      Evaluates bindings (.list (head :: clauses)) r (n + 1)
  | sequence {head : SExpr} {rest exprs : List SExpr} {n : Nat} :
      isSymbol "literal" head = false → isSymbol "cond" head = false →
      isSequenceTemplate (head :: rest) = true →
      EvaluatesItems bindings (head :: rest) exprs n →
      Evaluates bindings (.list (head :: rest)) (.sequence exprs) (n + 1)
  | plain {head : SExpr} {rest : List SExpr} :
      isSymbol "literal" head = false → isSymbol "cond" head = false →
      isSequenceTemplate (head :: rest) = false →
      Evaluates bindings (.list (head :: rest))
        (.single (substituteExpr bindings (.list (head :: rest)))) 1
/-- The items of a sequence expand one after another. -/
inductive EvaluatesItems (bindings : Bindings) : List SExpr → List SExpr → Nat → Prop where
  | nil : EvaluatesItems bindings [] [] 0
  | single {x expr : SExpr} {rest exprs : List SExpr} {m n : Nat} :
      Evaluates bindings x (.single expr) m → EvaluatesItems bindings rest exprs n →
      EvaluatesItems bindings (x :: rest) (expr :: exprs) (max m n)
  | sequence {x : SExpr} {rest inner exprs : List SExpr} {m n : Nat} :
      Evaluates bindings x (.sequence inner) m → EvaluatesItems bindings rest exprs n →
      EvaluatesItems bindings (x :: rest) (inner ++ exprs) (max m n)
end

-- ── What the arguments select ────

mutual
/-- How deep the forms that the bindings select nest. -/
def formLevels (bindings : Bindings) : SExpr → Nat
  | .atom _ => 1
  | .list [] => 1
  | .list (head :: rest) =>
      if isSymbol "literal" head then 1
      else if isSymbol "cond" head then clauseLevels bindings rest + 1
      else if isSequenceTemplate (head :: rest) then
        max (formLevels bindings head) (itemLevels bindings rest) + 1
      else 1
/-- The nesting of the clause that is taken. -/
def clauseLevels (bindings : Bindings) : List SExpr → Nat
  | .list [test, body] :: rest =>
      if Taken bindings test then formLevels bindings body else clauseLevels bindings rest
  | _ => 0
/-- The deepest of some items. -/
def itemLevels (bindings : Bindings) : List SExpr → Nat
  | [] => 0
  | x :: rest => max (formLevels bindings x) (itemLevels bindings rest)
end

mutual
/-- The octets of an expression with its bound symbols replaced. -/
def boundOctets (bindings : Bindings) : SExpr → Nat
  | .atom a => byteSize (resolveValue bindings (.atom a))
  | .list items => boundItemOctets bindings items
/-- The octets of some expressions with their bound symbols replaced. -/
def boundItemOctets (bindings : Bindings) : List SExpr → Nat
  | [] => 0
  | x :: rest => boundOctets bindings x + boundItemOctets bindings rest
end

mutual
/-- The octets of the forms that the bindings select. -/
def formOctets (bindings : Bindings) : SExpr → Nat
  | .atom a => boundOctets bindings (.atom a)
  | .list [] => 0
  | .list (head :: rest) =>
      if isSymbol "literal" head then boundItemOctets bindings rest
      else if isSymbol "cond" head then clauseOctets bindings rest
      else if isSequenceTemplate (head :: rest) then
        formOctets bindings head + itemOctets bindings rest
      else boundItemOctets bindings (head :: rest)
/-- The octets of the clause that is taken. -/
def clauseOctets (bindings : Bindings) : List SExpr → Nat
  | .list [test, body] :: rest =>
      if Taken bindings test then formOctets bindings body else clauseOctets bindings rest
  | _ => 0
/-- The octets of some items. -/
def itemOctets (bindings : Bindings) : List SExpr → Nat
  | [] => 0
  | x :: rest => formOctets bindings x + itemOctets bindings rest
end

-- ── Evaluation follows the meaning ────

theorem evalForm_cons (head : SExpr) (rest : List SExpr) :
    evalForm bindings (.list (head :: rest)) =
      if isSymbol "literal" head then
        match rest with
        | [body] => some (.single (substituteExpr bindings body))
        | _ => none
      else if isSymbol "cond" head then evalCond bindings rest
      else if isSequenceTemplate (head :: rest) then
        (evalSequence bindings (head :: rest)).map .sequence
      else some (.single (substituteExpr bindings (.list (head :: rest)))) := rfl

theorem evalCond_clause (test body : SExpr) (rest : List SExpr) :
    evalCond bindings (.list [test, body] :: rest) =
      if Taken bindings test then evalForm bindings body else evalCond bindings rest := by
  rw [evalCond]
  rfl

/-- Clauses that do not start with a pair expand to nothing. -/
theorem evalCond_other {clauses : List SExpr}
    (h : ¬ ∃ test body rest, clauses = .list [test, body] :: rest) :
    evalCond bindings clauses = none := by
  match clauses with
  | [] => rw [evalCond]; exact nofun
  | .atom _ :: _ => rw [evalCond]; exact nofun
  | .list [] :: _ => rw [evalCond]; exact nofun
  | .list [_] :: _ => rw [evalCond]; exact nofun
  | .list [_, _] :: _ => exact absurd ⟨_, _, _, rfl⟩ h
  | .list (_ :: _ :: _ :: _) :: _ => rw [evalCond]; exact nofun

theorem formLevels_cons (head : SExpr) (rest : List SExpr) :
    formLevels bindings (.list (head :: rest)) =
      if isSymbol "literal" head then 1
      else if isSymbol "cond" head then clauseLevels bindings rest + 1
      else if isSequenceTemplate (head :: rest) then itemLevels bindings (head :: rest) + 1
      else 1 := rfl

theorem clauseLevels_clause (test body : SExpr) (rest : List SExpr) :
    clauseLevels bindings (.list [test, body] :: rest) =
      if Taken bindings test then formLevels bindings body else clauseLevels bindings rest := rfl

/-- An expansion in front of a sequence of expansions. -/
theorem consExpansion_eq_some_iff {first : Option ExpandedTemplate} {more : Option (List SExpr)}
    {exprs : List SExpr} : consExpansion first more = some exprs ↔
      (∃ expr rest, first = some (.single expr) ∧ more = some rest ∧ exprs = expr :: rest) ∨
      ∃ inner rest, first = some (.sequence inner) ∧ more = some rest ∧ exprs = inner ++ rest := by
  match first, more with
  | some (.single expr), some rest => simp [consExpansion, eq_comm]
  | some (.sequence inner), some rest => simp [consExpansion, eq_comm]
  | some (.single _), none => simp [consExpansion]
  | some (.sequence _), none => simp [consExpansion]
  | none, _ => simp [consExpansion]

mutual
/-- **Evaluation follows the meaning of templates**, and the bindings fix the nesting. -/
theorem evaluates_iff : ∀ (t : SExpr) (r : ExpandedTemplate) (n : Nat),
    Evaluates bindings t r n ↔ evalForm bindings t = some r ∧ n = formLevels bindings t
  | .atom a, r, n => by
      constructor
      · intro h
        cases h with
        | atom => exact ⟨rfl, rfl⟩
      · rintro ⟨h, rfl⟩
        injection h with h
        subst h
        exact .atom a
  | .list [], r, n => by
      constructor
      · intro h
        cases h with
        | empty => exact ⟨rfl, rfl⟩
      · rintro ⟨h, rfl⟩
        injection h with h
        subst h
        exact .empty
  | .list (head :: rest), r, n => by
      have hclauses := clauses_iff rest
      have hitems := items_iff (head :: rest)
      rw [evalForm_cons, formLevels_cons]
      -- the four readings of a list, in the order in which the source tries them
      by_cases hliteral : isSymbol "literal" head = true
      · rw [if_pos hliteral, if_pos hliteral]
        constructor
        · intro h
          cases h with
          | literal => exact ⟨rfl, rfl⟩
          | cond h => rw [hliteral] at h; exact nomatch h
          | sequence h => rw [hliteral] at h; exact nomatch h
          | plain h => rw [hliteral] at h; exact nomatch h
        · rintro ⟨h, rfl⟩
          match rest, h with
          | [body], h =>
              injection h with h
              subst h
              exact .literal hliteral
          | [], h => exact nomatch h
          | _ :: _ :: _, h => exact nomatch h
      rw [if_neg hliteral, if_neg hliteral]
      have hliteral : isSymbol "literal" head = false := by simpa using hliteral
      by_cases hcond : isSymbol "cond" head = true
      · rw [if_pos hcond, if_pos hcond]
        constructor
        · intro h
          cases h with
          | literal h => rw [hliteral] at h; exact nomatch h
          | cond _ _ hselects hbody =>
              obtain ⟨heval, hlevels⟩ := (hclauses _ _).mp ⟨_, hselects, hbody⟩
              exact ⟨heval, congrArg (· + 1) hlevels⟩
          | sequence _ h => rw [hcond] at h; exact nomatch h
          | plain _ h => rw [hcond] at h; exact nomatch h
        · rintro ⟨heval, rfl⟩
          obtain ⟨body, hselects, hbody⟩ := (hclauses _ _).mpr ⟨heval, rfl⟩
          exact .cond hliteral hcond hselects hbody
      rw [if_neg hcond, if_neg hcond]
      have hcond : isSymbol "cond" head = false := by simpa using hcond
      by_cases hseq : isSequenceTemplate (head :: rest) = true
      · rw [if_pos hseq, if_pos hseq]
        constructor
        · intro h
          cases h with
          | literal h => rw [hliteral] at h; exact nomatch h
          | cond _ h => rw [hcond] at h; exact nomatch h
          | sequence _ _ _ hexprs =>
              obtain ⟨heval, hlevels⟩ := (hitems _ _).mp hexprs
              exact ⟨by rw [heval]; rfl, congrArg (· + 1) hlevels⟩
          | plain _ _ h => rw [hseq] at h; exact nomatch h
        · rintro ⟨heval, rfl⟩
          obtain ⟨exprs, hexprs, rfl⟩ := Option.map_eq_some_iff.mp heval
          exact .sequence hliteral hcond hseq ((hitems _ _).mpr ⟨hexprs, rfl⟩)
      rw [if_neg hseq, if_neg hseq]
      have hseq : isSequenceTemplate (head :: rest) = false := by simpa using hseq
      constructor
      · intro h
        cases h with
        | literal h => rw [hliteral] at h; exact nomatch h
        | cond _ h => rw [hcond] at h; exact nomatch h
        | sequence _ _ h => rw [hseq] at h; exact nomatch h
        | plain => exact ⟨rfl, rfl⟩
      · rintro ⟨h, rfl⟩
        injection h with h
        subst h
        exact .plain hliteral hcond hseq

theorem clauses_iff : ∀ (clauses : List SExpr) (r : ExpandedTemplate) (n : Nat),
    (∃ body, Selects bindings clauses body ∧ Evaluates bindings body r n) ↔
      evalCond bindings clauses = some r ∧ n = clauseLevels bindings clauses
  | clauses, r, n => by
      by_cases hclause : ∃ test body rest, clauses = .list [test, body] :: rest
      · obtain ⟨test, body, rest, rfl⟩ := hclause
        have hbody := evaluates_iff body r n
        have hrest := clauses_iff rest r n
        rw [evalCond_clause, clauseLevels_clause]
        by_cases htaken : Taken bindings test = true
        · rw [if_pos htaken, if_pos htaken, ← hbody]
          constructor
          · rintro ⟨_, hselects, heval⟩
            cases hselects with
            | here => exact heval
            | there h => rw [htaken] at h; exact nomatch h
          · exact fun heval => ⟨body, .here htaken, heval⟩
        · rw [if_neg htaken, if_neg htaken, ← hrest]
          have htaken : Taken bindings test = false := by simpa using htaken
          constructor
          · rintro ⟨body', hselects, heval⟩
            cases hselects with
            | here h => rw [htaken] at h; exact nomatch h
            | there _ hselects => exact ⟨body', hselects, heval⟩
          · rintro ⟨body', hselects, heval⟩
            exact ⟨body', .there htaken hselects, heval⟩
      · rw [evalCond_other hclause]
        constructor
        · rintro ⟨_, hselects, -⟩
          cases hselects with
          | here => exact absurd ⟨_, _, _, rfl⟩ hclause
          | there => exact absurd ⟨_, _, _, rfl⟩ hclause
        · rintro ⟨h, -⟩
          exact nomatch h

theorem items_iff : ∀ (items exprs : List SExpr) (n : Nat),
    EvaluatesItems bindings items exprs n ↔
      evalSequence bindings items = some exprs ∧ n = itemLevels bindings items
  | [], exprs, n => by
      constructor
      · intro h
        cases h with
        | nil => exact ⟨rfl, rfl⟩
      · rintro ⟨h, rfl⟩
        injection h with h
        subst h
        exact .nil
  | x :: rest, exprs, n => by
      have hx := evaluates_iff x
      have hrest := items_iff rest
      rw [evalSequence, consExpansion_eq_some_iff, itemLevels]
      constructor
      · intro h
        cases h with
        | single hfirst hmore =>
            obtain ⟨hform, rfl⟩ := (hx _ _).mp hfirst
            obtain ⟨hforms, rfl⟩ := (hrest _ _).mp hmore
            exact ⟨.inl ⟨_, _, hform, hforms, rfl⟩, rfl⟩
        | sequence hfirst hmore =>
            obtain ⟨hform, rfl⟩ := (hx _ _).mp hfirst
            obtain ⟨hforms, rfl⟩ := (hrest _ _).mp hmore
            exact ⟨.inr ⟨_, _, hform, hforms, rfl⟩, rfl⟩
      · rintro ⟨⟨expr, more, hfirst, hmore, rfl⟩ | ⟨inner, more, hfirst, hmore, rfl⟩, rfl⟩
        · exact .single ((hx _ _).mpr ⟨hfirst, rfl⟩) ((hrest _ _).mpr ⟨hmore, rfl⟩)
        · exact .sequence ((hx _ _).mpr ⟨hfirst, rfl⟩) ((hrest _ _).mpr ⟨hmore, rfl⟩)
end

-- ── The size of an expansion ────

mutual
theorem byteSize_substituteExpr : ∀ t : SExpr,
    byteSize (substituteExpr bindings t) = boundOctets bindings t
  | .atom _ => by rw [substituteExpr, boundOctets]
  | .list items => by rw [substituteExpr, byteSize, boundOctets, byteSize_substituteItems items]

theorem byteSize_substituteItems : ∀ items : List SExpr,
    byteSizeItems (substituteItems bindings items) = boundItemOctets bindings items
  | [] => rfl
  | x :: rest => by
      rw [substituteItems, byteSizeItems, boundItemOctets, byteSize_substituteExpr x,
        byteSize_substituteItems rest]
end

theorem byteSizeItems_append (xs ys : List SExpr) :
    byteSizeItems (xs ++ ys) = byteSizeItems xs + byteSizeItems ys := by
  induction xs with
  | nil => exact (Nat.zero_add _).symm
  | cons x xs ih => rw [List.cons_append, byteSizeItems, byteSizeItems, ih, Nat.add_assoc]

/-- The expression of an expansion. -/
def expression : ExpandedTemplate → SExpr
  | .single expr => expr
  | .sequence exprs => .list exprs

theorem formOctets_cons (head : SExpr) (rest : List SExpr) :
    formOctets bindings (.list (head :: rest)) =
      if isSymbol "literal" head then boundItemOctets bindings rest
      else if isSymbol "cond" head then clauseOctets bindings rest
      else if isSequenceTemplate (head :: rest) then itemOctets bindings (head :: rest)
      else boundItemOctets bindings (head :: rest) := rfl

theorem clauseOctets_clause (test body : SExpr) (rest : List SExpr) :
    clauseOctets bindings (.list [test, body] :: rest) =
      if Taken bindings test then formOctets bindings body else clauseOctets bindings rest := rfl

mutual
/-- The size of an expansion is that of the selected forms. -/
theorem byteSize_of_evalForm : ∀ (t : SExpr) {r : ExpandedTemplate},
    evalForm bindings t = some r → byteSize (expression r) = formOctets bindings t
  | .atom a, r, h => by
      injection h with h
      subst h
      rw [formOctets, boundOctets]
      rfl
  | .list [], r, h => by
      injection h with h
      subst h
      rfl
  | .list (head :: rest), r, h => by
      have hclauses := @byteSize_of_evalCond rest
      have hitems := @byteSize_of_evalSequence (head :: rest)
      rw [evalForm_cons] at h
      rw [formOctets_cons]
      by_cases hliteral : isSymbol "literal" head = true
      · rw [if_pos hliteral] at h ⊢
        match rest, h with
        | [body], h =>
            injection h with h
            subst h
            rw [expression, byteSize_substituteExpr, boundItemOctets, boundItemOctets, Nat.add_zero]
        | [], h => exact nomatch h
        | _ :: _ :: _, h => exact nomatch h
      rw [if_neg hliteral] at h ⊢
      by_cases hcond : isSymbol "cond" head = true
      · rw [if_pos hcond] at h ⊢
        exact hclauses h
      rw [if_neg hcond] at h ⊢
      by_cases hseq : isSequenceTemplate (head :: rest) = true
      · rw [if_pos hseq] at h ⊢
        obtain ⟨exprs, hexprs, rfl⟩ := Option.map_eq_some_iff.mp h
        rw [expression, byteSize]
        exact hitems hexprs
      rw [if_neg hseq] at h ⊢
      injection h with h
      subst h
      rw [expression, byteSize_substituteExpr, boundOctets]

theorem byteSize_of_evalCond : ∀ (clauses : List SExpr) {r : ExpandedTemplate},
    evalCond bindings clauses = some r → byteSize (expression r) = clauseOctets bindings clauses
  | clauses, r, h => by
      by_cases hclause : ∃ test body rest, clauses = .list [test, body] :: rest
      · obtain ⟨test, body, rest, rfl⟩ := hclause
        have hbody := @byteSize_of_evalForm body r
        have hrest := @byteSize_of_evalCond rest r
        rw [evalCond_clause] at h
        rw [clauseOctets_clause]
        by_cases htaken : Taken bindings test = true
        · rw [if_pos htaken] at h ⊢
          exact hbody h
        · rw [if_neg htaken] at h ⊢
          exact hrest h
      · rw [evalCond_other hclause] at h
        exact nomatch h

theorem byteSize_of_evalSequence : ∀ (items : List SExpr) {exprs : List SExpr},
    evalSequence bindings items = some exprs → byteSizeItems exprs = itemOctets bindings items
  | [], exprs, h => by
      injection h with h
      subst h
      rfl
  | x :: rest, exprs, h => by
      have hx := @byteSize_of_evalForm x
      have hrest := @byteSize_of_evalSequence rest
      rw [evalSequence, consExpansion_eq_some_iff] at h
      rw [itemOctets]
      obtain ⟨expr, more, hfirst, hmore, rfl⟩ | ⟨inner, more, hfirst, hmore, rfl⟩ := h
      · rw [byteSizeItems, hrest hmore, ← hx hfirst]
        rfl
      · rw [byteSizeItems_append, hrest hmore, ← hx hfirst, expression, byteSize]
end

-- ── The size as a machine integer ────

/-- No conversion and no partial sum of the size of an expansion leaves 32 bits. -/
def SizeExact : ExpandedTemplate → Prop
  | .single expr => byteSize expr < 2 ^ 32
  | .sequence exprs =>
      (∀ expr ∈ exprs, byteSize expr < 2 ^ 32) ∧ ∀ k, byteSizeItems (exprs.take k) < 2 ^ 32

theorem byteSize_le_of_mem {expr : SExpr} {exprs : List SExpr} (h : expr ∈ exprs) :
    byteSize expr ≤ byteSizeItems exprs := by
  obtain ⟨before, after, rfl⟩ := List.append_of_mem h
  rw [byteSizeItems_append, byteSizeItems]
  omega

theorem byteSizeItems_take_le (exprs : List SExpr) (k : Nat) :
    byteSizeItems (exprs.take k) ≤ byteSizeItems exprs := by
  have hsplit := byteSizeItems_append (exprs.take k) (exprs.drop k)
  rw [List.take_append_drop] at hsplit
  omega

/-- Nothing wraps exactly if the whole has 32 bits. -/
theorem sizeExact_iff (r : ExpandedTemplate) : SizeExact r ↔ byteSize (expression r) < 2 ^ 32 := by
  cases r with
  | single expr => exact Iff.rfl
  | sequence exprs =>
      rw [expression, byteSize]
      constructor
      · rintro ⟨-, hsums⟩
        have hall := hsums exprs.length
        rwa [List.take_length] at hall
      · intro hall
        exact ⟨fun expr hexpr => Nat.lt_of_le_of_lt (byteSize_le_of_mem hexpr) hall,
          fun k => Nat.lt_of_le_of_lt (byteSizeItems_take_le exprs k) hall⟩

/-- The machine integer is the size modulo 2^32. -/
theorem expansionSize_toNat (r : ExpandedTemplate) :
    (expansionSize r).toNat = byteSize (expression r) % 2 ^ 32 := by
  have hsum : ∀ (exprs : List SExpr) (n : UInt32),
      (exprs.foldl (fun n e => n + UInt32.ofNat (byteSize e)) n).toNat =
        (n.toNat + byteSizeItems exprs) % 2 ^ 32 := by
    intro exprs
    induction exprs with
    | nil =>
        intro n
        exact (Nat.mod_eq_of_lt (UInt32.toNat_lt n)).symm
    | cons e exprs ih =>
        intro n
        rw [List.foldl_cons, ih, UInt32.toNat_add, UInt32.toNat_ofNat', byteSizeItems]
        omega
  cases r with
  | single expr => exact UInt32.toNat_ofNat'
  | sequence exprs =>
      rw [expansionSize, hsum, expression, byteSize, UInt32.toNat_zero, Nat.zero_add]

-- ── What the bounds hold back ────

section Bounds

variable {p : PerformativeDef} {args : List SExpr} {bounds : ResourceBounds} {e : SExpr}
  {rs : ResourceState}

theorem enterDepth_eq_some_iff {rs rs' : ResourceState} : rs.enterDepth = some rs' ↔
    rs.current_depth + 1 < rs.max_depth ∧
      rs' = { rs with current_depth := rs.current_depth + 1 } := by
  simp only [ResourceState.enterDepth]
  by_cases h : rs.current_depth + 1 < rs.max_depth
  · rw [if_pos h]
    exact ⟨fun heq => ⟨h, (Option.some.inj heq).symm⟩, fun heq => congrArg some heq.2.symm⟩
  · rw [if_neg h]
    exact ⟨(nomatch ·), fun heq => absurd heq.1 h⟩

theorem addExpansion_eq_some_iff {rs rs' : ResourceState} {size : UInt32} :
    rs.addExpansion size = some rs' ↔ rs.expansion_size + size < rs.max_exp_size ∧
      rs' = { rs with expansion_size := rs.expansion_size + size } := by
  simp only [ResourceState.addExpansion]
  by_cases h : rs.expansion_size + size < rs.max_exp_size
  · rw [if_pos h]
    exact ⟨fun heq => ⟨h, (Option.some.inj heq).symm⟩, fun heq => congrArg some heq.2.symm⟩
  · rw [if_neg h]
    exact ⟨(nomatch ·), fun heq => absurd heq.1 h⟩

/-- What an expansion in a fresh state was checked for: one level, and the size modulo 2^32. -/
theorem expandTemplate_initial (h : expandTemplate p args (.initial bounds) = some (e, rs)) :
    ∃ r, evalForm (buildBindings p.params args) p.template = some r ∧ e = expression r ∧
      1 < bounds.max_depth ∧ expansionSize r < bounds.max_expansion_size := by
  obtain ⟨⟨r, rs'⟩, htemplate, hexpand⟩ := Option.bind_eq_some_iff.mp h
  obtain ⟨rs₁, hdepth, htemplate⟩ := Option.bind_eq_some_iff.mp htemplate
  obtain ⟨r', hform, htemplate⟩ := Option.bind_eq_some_iff.mp htemplate
  obtain ⟨rs₂, hsize, hpair⟩ := Option.bind_eq_some_iff.mp htemplate
  injection hpair with hpair
  injection hpair with hr _
  subst hr
  obtain ⟨hlevel, rfl⟩ := enterDepth_eq_some_iff.mp hdepth
  obtain ⟨hadded, -⟩ := addExpansion_eq_some_iff.mp hsize
  have hone : (0 : UInt32) + 1 < bounds.max_depth := hlevel
  have hzero : (0 : UInt32) + expansionSize r' < bounds.max_expansion_size := hadded
  rw [UInt32.zero_add] at hone hzero
  refine ⟨r', hform, ?_, hone, hzero⟩
  cases r' with
  | single expr =>
      injection hexpand with hexpand
      injection hexpand with hexpand _
      exact hexpand.symm
  | sequence exprs =>
      injection hexpand with hexpand
      injection hexpand with hexpand _
      exact hexpand.symm

/-- **What the bounds hold back.**  An expansion stays below both bounds, without wrapping, exactly
    if the forms that the arguments select nest less than `max_depth` deep and hold fewer than 2^32
    octets. -/
theorem expansion_bounded_iff (h : expandTemplate p args (.initial bounds) = some (e, rs)) :
    (byteSize e < bounds.max_expansion_size.toNat ∧
      ∃ r n, Evaluates (buildBindings p.params args) p.template r n ∧ e = expression r ∧
        n < bounds.max_depth.toNat ∧ SizeExact r) ↔
      formLevels (buildBindings p.params args) p.template < bounds.max_depth.toNat ∧
        formOctets (buildBindings p.params args) p.template < 2 ^ 32 := by
  obtain ⟨r, hform, rfl, -, hsize⟩ := expandTemplate_initial h
  have hoctets := byteSize_of_evalForm p.template hform
  constructor
  · rintro ⟨-, r', n, hevaluates, -, hlevels, hexact⟩
    obtain ⟨hform', rfl⟩ := (evaluates_iff _ _ _).mp hevaluates
    have hsame : r' = r := Option.some.inj (hform'.symm.trans hform)
    rw [hsame, sizeExact_iff, hoctets] at hexact
    exact ⟨hlevels, hexact⟩
  · rintro ⟨hlevels, hfits⟩
    have hexact : byteSize (expression r) < 2 ^ 32 := hoctets ▸ hfits
    refine ⟨?_, r, _, (evaluates_iff _ _ _).mpr ⟨hform, rfl⟩, rfl, hlevels,
      (sizeExact_iff r).mpr hexact⟩
    have hlt := UInt32.lt_iff_toNat_lt.mp hsize
    rwa [expansionSize_toNat, Nat.mod_eq_of_lt hexact] at hlt

end Bounds

/-- A performative whose template is a conditional in a conditional. -/
def nestedPerformative : PerformativeDef :=
  ⟨"relay", [.atom (.symbol "x")],
    .list [.atom (.symbol "cond"), .list [.atom (.symbol "else"),
      .list [.atom (.symbol "cond"), .list [.atom (.symbol "else"), .atom (.symbol "x")]]]], none⟩

/-- Three forms one inside another under a bound of eight. -/
theorem expansion_bounded_nested :
    (byteSize (.atom (.str "hello")) < (512 : UInt32).toNat ∧
      ∃ r n, Evaluates (buildBindings nestedPerformative.params [.atom (.str "hello")])
        nestedPerformative.template r n ∧ .atom (.str "hello") = expression r ∧
        n < (8 : UInt32).toNat ∧ SizeExact r) ↔
      formLevels (buildBindings nestedPerformative.params [.atom (.str "hello")])
        nestedPerformative.template < (8 : UInt32).toNat ∧
      formOctets (buildBindings nestedPerformative.params [.atom (.str "hello")])
        nestedPerformative.template < 2 ^ 32 := by
  have hrun : expandTemplate nestedPerformative [.atom (.str "hello")] (.initial ⟨8, 512, 10⟩) =
      some (.atom (.str "hello"), ⟨1, 5, 8, 512⟩) := by decide +kernel
  exact expansion_bounded_iff hrun

/-- **Three forms one inside another pass a bound of two.** -/
theorem expansion_unbounded :
    ¬ ∀ (p : PerformativeDef) (args : List SExpr) (bounds : ResourceBounds) (e : SExpr)
      (rs : ResourceState), expandTemplate p args (.initial bounds) = some (e, rs) →
      byteSize e < bounds.max_expansion_size.toNat ∧
        ∃ r n, Evaluates (buildBindings p.params args) p.template r n ∧ e = expression r ∧
          n < bounds.max_depth.toNat ∧ SizeExact r := by
  intro hclaim
  have hrun : expandTemplate nestedPerformative [.atom (.str "hello")] (.initial ⟨2, 512, 10⟩) =
      some (.atom (.str "hello"), ⟨1, 5, 2, 512⟩) := by decide +kernel
  obtain ⟨-, r, n, hevaluates, -, hlevels, -⟩ := hclaim _ _ _ _ _ hrun
  obtain ⟨-, rfl⟩ := (evaluates_iff _ _ _).mp hevaluates
  exact absurd hlevels (by decide +kernel)

end CbclExpansion
