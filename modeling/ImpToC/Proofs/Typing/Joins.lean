import ImpToC.Proofs.Typing.Demands
import ImpToC.Proofs.Typing.Rules

/-!
# The type of an expression by its leaves

The type that a checker finds for an expression depends on the types of the leaves and, where
these are strings, on the operators, and not on how the leaves are put together.
-/

namespace ImpToC

namespace Expr

/-- The types of the literals and variables in an expression, from left to right. A variable
that is not declared has none. -/
def leafTypes (symbols : Table String Ty) : Expr → List (Option Ty)
  | .name _ x => [symbols.get? x]
  | .int .. => [some .int]
  | .float .. => [some .float]
  | .string .. => [some .string]
  | .negate _ operand => operand.leafTypes symbols
  | .binary _ _ left right => left.leafTypes symbols ++ right.leafTypes symbols

/-- The binary operators in an expression, from left to right. -/
def operators : Expr → List BinOp
  | .name .. | .int .. | .float .. | .string .. => []
  | .negate _ operand => operand.operators
  | .binary _ op left right => left.operators ++ op :: right.operators

theorem leafTypes_ne_nil (symbols : Table String Ty) (e : Expr) : e.leafTypes symbols ≠ [] := by
  induction e with
  | name | int | float | string => exact List.cons_ne_nil _ _
  | negate _ _ ih => exact ih
  | binary _ _ _ _ ih => exact List.append_ne_nil_of_left_ne_nil ih _

end Expr

/-! ## Joining types -/

/-- The type that leaves of some types make up under some operators. -/
inductive Joins (leaves : List (Option Ty)) (operators : List BinOp) : Ty → Prop
  | ints : (∀ leaf ∈ leaves, leaf = some .int) → Joins leaves operators .int
  | floats : (∀ leaf ∈ leaves, leaf = some .int ∨ leaf = some .float) → some .float ∈ leaves →
      Joins leaves operators .float
  | strings : (∀ leaf ∈ leaves, leaf = some .string) →
      (∀ op ∈ operators, op = .add ∨ op = .sub) → Joins leaves operators .string

namespace Joins

variable {leaves left right : List (Option Ty)} {ops leftOps rightOps : List BinOp} {op : BinOp}
  {type type' leftType rightType : Ty}

/-- One leaf makes up its own type. -/
theorem single : ∀ type : Ty, Joins [some type] [] type
  | .int => .ints (by simp)
  | .float => .floats (by simp) (by simp)
  | .string => .strings (by simp) (by simp)

/-- Every leaf of some that make up a type has one. -/
theorem none_not_mem (h : Joins leaves ops type) : none ∉ leaves := by
  intro hmem
  cases h with
  | ints h => cases h _ hmem
  | floats h => cases h _ hmem <;> contradiction
  | strings h => cases h _ hmem

/-- Where there is a leaf, only one type can be made up. -/
theorem unique (hne : leaves ≠ []) (h : Joins leaves ops type) (h' : Joins leaves ops type') :
    type' = type := by
  obtain ⟨leaf, hleaf⟩ := List.exists_mem_of_ne_nil leaves hne
  cases h with
  | ints hints =>
      cases h' with
      | ints => rfl
      | floats _ hfloat => cases hints _ hfloat
      | strings hstrings => cases (hints leaf hleaf).symm.trans (hstrings leaf hleaf)
  | floats hnumbers hfloat =>
      cases h' with
      | ints hints => cases hints _ hfloat
      | floats => rfl
      | strings hstrings => cases hstrings _ hfloat
  | strings hstrings =>
      cases h' with
      | ints hints => cases (hints leaf hleaf).symm.trans (hstrings leaf hleaf)
      | floats _ hfloat => cases hstrings _ hfloat
      | strings => rfl

/-- The leaves of a number are numbers. -/
theorem numbers (h : Joins leaves ops type) (hne : type ≠ .string) :
    ∀ leaf ∈ leaves, leaf = some .int ∨ leaf = some .float := by
  cases h with
  | ints h => exact fun leaf hleaf => .inl (h leaf hleaf)
  | floats h => exact h
  | strings => exact absurd rfl hne

/-- Two sides of an operation make up its type together. -/
theorem binary (hleft : Joins left leftOps leftType) (hright : Joins right rightOps rightType)
    (hop : op.Types leftType rightType type) :
    Joins (left ++ right) (leftOps ++ op :: rightOps) type := by
  have hnumbers (hl : leftType ≠ .string) (hr : rightType ≠ .string) :
      ∀ leaf ∈ left ++ right, leaf = some .int ∨ leaf = some .float :=
    List.forall_mem_append.mpr ⟨hleft.numbers hl, hright.numbers hr⟩
  have hstrings (happlies : op = .add ∨ op = .sub) (hl : leftType = .string)
      (hr : rightType = .string) : Joins (left ++ right) (leftOps ++ op :: rightOps) .string := by
    subst hl hr
    cases hleft with
    | strings hleftLeaves hleftOps =>
        cases hright with
        | strings hrightLeaves hrightOps =>
            exact .strings (List.forall_mem_append.mpr ⟨hleftLeaves, hrightLeaves⟩)
              (List.forall_mem_append.mpr
                ⟨hleftOps, List.forall_mem_cons.mpr ⟨happlies, hrightOps⟩⟩)
  cases hop with
  | numbers _ hpromotes =>
      cases hpromotes with
      | ints =>
          cases hleft with
          | ints hl =>
              cases hright with
              | ints hr => exact .ints (List.forall_mem_append.mpr ⟨hl, hr⟩)
      | intFloat | floats =>
          cases hright with
          | floats _ hfloat =>
              exact .floats (hnumbers nofun nofun) (List.mem_append_right left hfloat)
      | floatInt =>
          cases hleft with
          | floats _ hfloat =>
              exact .floats (hnumbers nofun nofun) (List.mem_append_left right hfloat)
  | addStrings => exact hstrings (.inl rfl) rfl rfl
  | subStrings => exact hstrings (.inr rfl) rfl rfl

/-- Numbers always make up a type, a float if there is one among them. -/
theorem exists_of_numbers (ops : List BinOp)
    (h : ∀ leaf ∈ leaves, leaf = some .int ∨ leaf = some .float) :
    ∃ type, Joins leaves ops type ∧ (some .float ∈ leaves ∧ type = .float ∨
      some .float ∉ leaves ∧ type = .int) := by
  by_cases hfloat : some .float ∈ leaves
  · exact ⟨.float, .floats h hfloat, .inl ⟨hfloat, rfl⟩⟩
  · refine ⟨.int, .ints fun leaf hleaf => ?_, .inr ⟨hfloat, rfl⟩⟩
    exact (h leaf hleaf).resolve_right fun heq => hfloat (heq ▸ hleaf)

/-- What leaves of two sides make up together comes from what those of each side make up. -/
theorem exists_of_binary (h : Joins (left ++ right) (leftOps ++ op :: rightOps) type) :
    ∃ leftType rightType, Joins left leftOps leftType ∧ Joins right rightOps rightType ∧
      op.Types leftType rightType type := by
  cases h with
  | ints h =>
      obtain ⟨hl, hr⟩ := List.forall_mem_append.mp h
      exact ⟨_, _, .ints hl, .ints hr, .numbers op .ints⟩
  | floats h hfloat =>
      obtain ⟨hl, hr⟩ := List.forall_mem_append.mp h
      obtain ⟨leftType, hleft, hleftType⟩ := exists_of_numbers leftOps hl
      obtain ⟨rightType, hright, hrightType⟩ := exists_of_numbers rightOps hr
      refine ⟨leftType, rightType, hleft, hright, .numbers op ?_⟩
      rcases hleftType with ⟨-, rfl⟩ | ⟨hl, rfl⟩ <;> rcases hrightType with ⟨-, rfl⟩ | ⟨hr, rfl⟩
      · exact .floats
      · exact .floatInt
      · exact .intFloat
      · exact absurd hfloat (by simp [hl, hr])
  | strings h hops =>
      obtain ⟨hl, hr⟩ := List.forall_mem_append.mp h
      obtain ⟨hlOps, hop, hrOps⟩ := List.forall_mem_append.mp hops |>.imp_right
        List.forall_mem_cons.mp
      refine ⟨_, _, .strings hl hlOps, .strings hr hrOps, ?_⟩
      rcases hop with rfl | rfl
      · exact .addStrings
      · exact .subStrings

/-- How leaves and operators are put in order makes no difference. -/
theorem perm {leaves' : List (Option Ty)} {ops' : List BinOp} (hleaves : leaves.Perm leaves')
    (hops : ops.Perm ops') (h : Joins leaves ops type) : Joins leaves' ops' type := by
  cases h with
  | ints h => exact .ints fun leaf hleaf => h leaf (hleaves.mem_iff.mpr hleaf)
  | floats h hfloat =>
      exact .floats (fun leaf hleaf => h leaf (hleaves.mem_iff.mpr hleaf))
        (hleaves.mem_iff.mp hfloat)
  | strings h hop =>
      exact .strings (fun leaf hleaf => h leaf (hleaves.mem_iff.mpr hleaf))
        fun op hmem => hop op (hops.mem_iff.mpr hmem)

end Joins

namespace Checker

/-! ## Walking over an expression -/

/-- A checker that has put the types of some expressions on record in turn. -/
structure GoesOver (c : Checker) (es : List Expr) (after : Checker) : Prop where
  meets : meetAll (es.map .typed) c = .ok () after
  symbols : after.symbols = c.symbols
  others : ∀ id, id ∉ es.map Expr.id → after.types.get? id = c.types.get? id

variable {c m m' : Checker} {es es' : List Expr} {e : Expr} {type : Ty}

namespace GoesOver

theorem refl (c : Checker) : c.GoesOver [] c := ⟨rfl, rfl, fun _ _ => rfl⟩

theorem trans (h : c.GoesOver es m) (h' : m.GoesOver es' m') : c.GoesOver (es ++ es') m' := by
  refine ⟨?_, h'.symbols.trans h.symbols, fun id hid => ?_⟩
  · rw [List.map_append, meetAll_append, bind_of_ok h.meets]
    exact h'.meets
  · rw [List.map_append, List.mem_append, not_or] at hid
    exact (h'.others id hid.2).trans (h.others id hid.1)

/-- The type of one more expression is put on record. -/
theorem concat (h : c.GoesOver es m) (hinfer : infer e m = .ok type m) :
    c.GoesOver (es ++ [e]) { m with types := m.types.insert e.id type } := by
  refine h.trans ⟨?_, rfl, fun id hid => ?_⟩
  · have hmeet : meet (.typed e) m = .ok () { m with types := m.types.insert e.id type } :=
      bind_of_ok hinfer
    exact bind_of_ok hmeet
  · exact Table.get?_insert_of_ne m.types type fun heq => hid (heq ▸ List.mem_singleton_self _)

/-- There is a fault in one more expression. -/
theorem concat_error (h : c.GoesOver es m) {stop : Stop} (hinfer : infer e m = .error stop m) :
    meetAll ((es ++ [e]).map .typed) c = .error stop m := by
  have hmeet : meet (.typed e) m = .error stop m := bind_of_error hinfer
  rw [List.map_append, meetAll_append, bind_of_ok h.meets]
  exact bind_of_error hmeet

end GoesOver

theorem meetAll_append_of_error (es' : List Expr) {stop : Stop}
    (h : meetAll (es.map .typed) c = .error stop m) :
    meetAll ((es ++ es').map .typed) c = .error stop m := by
  rw [List.map_append, meetAll_append, bind_of_error h]

/-- Going through an expression, a checker finds the type that its leaves make up, or there is
a fault and they make up none. -/
theorem goesOver_or_stops (e : Expr) (hnodup : (e.postorder.map Expr.id).Nodup) (c : Checker) :
    (∃ type m, Joins (e.leafTypes c.symbols) e.operators type ∧ c.GoesOver e.postorder m ∧
        m.types.get? e.id = some type) ∨
      (∀ type, ¬ Joins (e.leafTypes c.symbols) e.operators type) ∧
        ∃ f m, meetAll (e.postorder.map .typed) c = .error (.fault f) m := by
  have hself (m : Checker) (type : Ty) (id : Nat) : (m.types.insert id type).get? id = some type :=
    m.types.get?_insert_self id type
  induction e generalizing c with
  | name mark x =>
      have hget : (get : Pass Checker) c = .ok c c := rfl
      cases hfound : c.symbols.get? x with
      | some type =>
          have hinfer : infer (.name mark x) c = .ok type c := by
            rw [infer, lookup, bind_of_ok hget, hfound]
            rfl
          refine .inl ⟨type, _, ?_, (GoesOver.refl c).concat hinfer, hself c type mark.id⟩
          rw [Expr.leafTypes, hfound]
          exact Joins.single type
      | none =>
          obtain ⟨f, hinfer⟩ : ∃ f, infer (.name mark x) c = .error (.fault f) c := by
            rw [infer, lookup, bind_of_ok hget, hfound]
            exact ⟨_, rfl⟩
          refine .inr ⟨fun type hjoins => ?_, f, c, (GoesOver.refl c).concat_error hinfer⟩
          rw [Expr.leafTypes, hfound] at hjoins
          exact hjoins.none_not_mem List.mem_cons_self
  | int mark | float mark | string mark =>
      exact .inl ⟨_, _, Joins.single _, (GoesOver.refl c).concat rfl, hself c _ mark.id⟩
  | negate mark operand ih =>
      rw [Expr.postorder, List.map_append] at hnodup
      rw [Expr.postorder]
      rcases ih (List.nodup_append.mp hnodup).1 c with ⟨type, m, hjoins, hm, hfound⟩ | ⟨hnone, f, m, hm⟩
      · have hinfer : infer (.negate mark operand) m = .ok type m := recorded_of_get? hfound
        exact .inl ⟨type, _, hjoins, hm.concat hinfer, hself m type mark.id⟩
      · exact .inr ⟨hnone, f, m, meetAll_append_of_error _ hm⟩
  | binary mark op left right ihleft ihright =>
      rw [Expr.postorder, List.map_append, List.map_append] at hnodup
      obtain ⟨hleftIds, hrightIds, hdisjoint⟩ := List.nodup_append.mp (List.nodup_append.mp hnodup).1
      rw [Expr.postorder]
      rcases ihleft hleftIds c with ⟨leftType, m, hleft, hm, hleftFound⟩ | ⟨hnone, f, m, hm⟩
      · have hright := ihright hrightIds m
        rw [hm.symbols] at hright
        rcases hright with ⟨rightType, m', hright, hm', hrightFound⟩ | ⟨hnone, f, m', hm'⟩
        · -- The right operand has been given other numbers than the left one.
          have hother : left.id ∉ right.postorder.map Expr.id := fun hmem =>
            hdisjoint _ (List.mem_map_of_mem left.mem_postorder_self) _ hmem rfl
          have hleftFound' := (hm'.others left.id hother).trans hleftFound
          have hboth := hm.trans hm'
          cases hresult : op.result? leftType rightType with
          | some type =>
              have hop := BinOp.result?_eq_some_iff.mp hresult
              exact .inl ⟨type, _, hleft.binary hright hop,
                hboth.concat (infer_binary hleftFound' hrightFound hresult), hself m' type mark.id⟩
          | none =>
              refine .inr ⟨fun type hjoins => ?_, _, m',
                hboth.concat_error (infer_binary_error hleftFound' hrightFound hresult)⟩
              obtain ⟨_, _, hleft', hright', hop⟩ := hjoins.exists_of_binary
              obtain rfl := hleft.unique (left.leafTypes_ne_nil _) hleft'
              obtain rfl := hright.unique (right.leafTypes_ne_nil _) hright'
              exact BinOp.result?_eq_none_iff.mp hresult type hop
        · refine .inr ⟨fun type hjoins => ?_, f, m', ?_⟩
          · obtain ⟨_, rightType, -, hright, -⟩ := hjoins.exists_of_binary
            exact hnone rightType hright
          · rw [List.append_assoc, List.map_append, meetAll_append, bind_of_ok hm.meets]
            exact meetAll_append_of_error _ hm'
      · refine .inr ⟨fun type hjoins => ?_, f, m, ?_⟩
        · obtain ⟨leftType, _, hleft, -, -⟩ := hjoins.exists_of_binary
          exact hnone leftType hleft
        · rw [List.append_assoc]
          exact meetAll_append_of_error _ hm

/-- A checker finds the type for an expression that its leaves make up, and no other. -/
theorem checkExpr_eq_ok_iff_joins {e : Expr} (hnodup : (e.postorder.map Expr.id).Nodup)
    {c : Checker} {type : Ty} :
    (∃ c', checkExpr e c = .ok type c') ↔ Joins (e.leafTypes c.symbols) e.operators type := by
  have hcheck : checkExpr e = (do meetAll (e.postorder.map .typed); recorded e.id) := by
    rw [checkExpr, walk_visit_eq_meetAll]
    simp [walk, Expr.demands]
  rw [hcheck]
  rcases goesOver_or_stops e hnodup c with ⟨found, m, hjoins, hm, hfound⟩ | ⟨hnone, f, m, hm⟩
  · rw [bind_of_ok hm.meets, recorded_of_get? hfound]
    constructor
    · rintro ⟨c', h⟩
      cases h
      exact hjoins
    · intro h
      obtain rfl := hjoins.unique (e.leafTypes_ne_nil _) h
      exact ⟨m, rfl⟩
  · rw [bind_of_error hm]
    constructor
    · rintro ⟨c', h⟩
      cases h
    · exact fun h => absurd h (hnone type)

/-- The type of an expression is the join of its leaves. A checker passes it just if they are all
numbers, or all strings with no operator but those that apply to strings; a variable that is not
declared is neither. The type is that of strings, of floats where one of the leaves is a float,
or else of whole numbers. So it makes no difference how operands are grouped and in which order
they come. -/
theorem checkExpr_joins_leaves (c : Checker) (e : Expr)
    (hnodup : (e.postorder.map Expr.id).Nodup) :
    ((∃ type c', checkExpr e c = .ok type c') ↔
        (∀ leaf ∈ e.leafTypes c.symbols, leaf = some .int ∨ leaf = some .float) ∨
        (∀ leaf ∈ e.leafTypes c.symbols, leaf = some .string) ∧
          ∀ op ∈ e.operators, op = .add ∨ op = .sub) ∧
      (∀ type c', checkExpr e c = .ok type c' →
        type =
          if ∀ leaf ∈ e.leafTypes c.symbols, leaf = some .string then .string
          else if some .float ∈ e.leafTypes c.symbols then .float
          else .int) ∧
      ∀ (other : Checker) (e' : Expr), (e'.postorder.map Expr.id).Nodup →
        (e'.leafTypes other.symbols).Perm (e.leafTypes c.symbols) →
        e'.operators.Perm e.operators →
        ∀ type, (∃ c', checkExpr e' other = .ok type c') ↔ ∃ c', checkExpr e c = .ok type c' := by
  refine ⟨?_, ?_, ?_⟩
  · simp only [checkExpr_eq_ok_iff_joins hnodup]
    constructor
    · rintro ⟨type, hints | hnumbers | ⟨hstrings, hops⟩⟩
      · exact .inl fun leaf hleaf => .inl (hints leaf hleaf)
      · exact .inl hnumbers
      · exact .inr ⟨hstrings, hops⟩
    · rintro (hnumbers | ⟨hstrings, hops⟩)
      · obtain ⟨type, hjoins, -⟩ := Joins.exists_of_numbers e.operators hnumbers
        exact ⟨type, hjoins⟩
      · exact ⟨.string, .strings hstrings hops⟩
  · intro type c' h
    have hjoins := (checkExpr_eq_ok_iff_joins hnodup).mp ⟨c', h⟩
    obtain ⟨leaf, hleaf⟩ := List.exists_mem_of_ne_nil _ (e.leafTypes_ne_nil c.symbols)
    cases hjoins with
    | ints hints =>
        rw [if_neg, if_neg]
        · exact fun hfloat => nomatch hints _ hfloat
        · exact fun hall => nomatch (hints leaf hleaf).symm.trans (hall leaf hleaf)
    | floats _ hfloat =>
        rw [if_neg, if_pos hfloat]
        exact fun hall => nomatch hall _ hfloat
    | strings hstrings => rw [if_pos hstrings]
  · intro other e' hnodup' hleaves hops type
    rw [checkExpr_eq_ok_iff_joins hnodup, checkExpr_eq_ok_iff_joins hnodup']
    exact ⟨.perm hleaves hops, .perm hleaves.symm hops.symm⟩

/-- With `x` a float, `1 + x * 2` is a float, and so is `2 * (x + 1)`. -/
theorem checkExpr_joins_leaves_float :
    let c : Checker := ⟨.ofList [("x", .float)], .empty, .ofList [(0, .string), (9, .int)]⟩
    let x : Expr := .name ⟨1, default⟩ "x"
    let e : Expr := .binary ⟨4, default⟩ .add (.int ⟨0, default⟩ 1)
      (.binary ⟨3, default⟩ .mul x (.int ⟨2, default⟩ 2))
    let e' : Expr := .binary ⟨4, default⟩ .mul (.int ⟨0, default⟩ 2)
      (.binary ⟨3, default⟩ .add x (.int ⟨2, default⟩ 1))
    (∃ c', checkExpr e c = .ok .float c') ∧ ∃ c', checkExpr e' c = .ok .float c' := by
  intro c x e e'
  obtain ⟨hpasses, htype, hperm⟩ := checkExpr_joins_leaves c e (by decide)
  obtain ⟨type, c', he⟩ := hpasses.mpr (.inl (by decide))
  obtain rfl : type = .float := (htype type c' he).trans (by decide)
  exact ⟨⟨c', he⟩, (hperm c e' (by decide) (by decide) (by decide) .float).mpr ⟨c', he⟩⟩

end Checker

end ImpToC
