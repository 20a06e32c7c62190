import ImpToC.C.Lowering
import ImpToC.Proofs.Lowering.Blocks
import ImpToC.Proofs.Syntax.Expressions

/-!
# Lowering keeps the meaning

Every expression is computed into its place, and every statement is followed by code
that does the same. This needs the types on record to be those of the rules.
-/

namespace ImpToC.C

variable {V T : Type} {I : Interpretation V T} {symbols : List (String × Ty)} {bound : Nat}
  {declared : List Declaration} {g g' : Generator}

/-- The types of some expressions are on record. -/
def Recorded (declared : List Declaration) (types : Table Nat Ty) (es : List Expr) : Prop :=
  ∀ e ∈ es, ∃ type, types.get? e.id = some type ∧ e.HasType declared type

theorem Recorded.left {types : Table Nat Ty} {es es' : List Expr}
    (h : Recorded declared types (es ++ es')) : Recorded declared types es :=
  fun e he => h e (List.mem_append_left es' he)

theorem Recorded.right {types : Table Nat Ty} {es es' : List Expr}
    (h : Recorded declared types (es ++ es')) : Recorded declared types es' :=
  fun e he => h e (List.mem_append_right es he)

/-! ## The generator -/

/-- All that changes is that there are more temporaries. -/
structure Grows (g g' : Generator) : Prop where
  symbols : g'.symbols = g.symbols
  types : g'.types = g.types
  temporaries : g.temporaries ≤ g'.temporaries

namespace Grows

theorem refl (g : Generator) : Grows g g := ⟨rfl, rfl, Nat.le_refl _⟩

theorem trans {m : Generator} (h : Grows g m) (h' : Grows m g') : Grows g g' :=
  ⟨h'.symbols.trans h.symbols, h'.types.trans h.types, Nat.le_trans h.temporaries h'.temporaries⟩

theorem succ (g : Generator) : Grows g { g with temporaries := g.temporaries + 1 } :=
  ⟨rfl, rfl, Nat.le_succ _⟩

theorem entries (h : Grows g g') (hsymbols : g.symbols.entries = symbols) :
    g'.symbols.entries = symbols := by
  rw [h.symbols]
  exact hsymbols

theorem recorded (h : Grows g g') {es : List Expr} (hrecorded : Recorded declared g.types es) :
    Recorded declared g'.types es := by
  rw [h.types]
  exact hrecorded

end Grows

theorem typeOf_eq_ok_iff {mark : Mark} {type : Ty} :
    typeOf mark g = .ok type g' ↔ g.types.get? mark.id = some type ∧ g' = g := by
  unfold typeOf
  simp only [bind_eq_ok_iff, get_eq_ok_iff]
  constructor
  · rintro ⟨_, _, ⟨hcurrent, hafter⟩, hmatch⟩
    rw [hcurrent, hafter] at hmatch
    cases hfound : g.types.get? mark.id with
    | none =>
        rw [hfound] at hmatch
        cases hmatch
    | some found =>
        rw [hfound] at hmatch
        obtain ⟨rfl, rfl⟩ := pure_eq_ok_iff.mp hmatch
        exact ⟨rfl, rfl⟩
  · rintro ⟨hfound, rfl⟩
    refine ⟨_, _, ⟨rfl, rfl⟩, ?_⟩
    rw [hfound]
    rfl

theorem define_eq_ok_iff {before code : List Instr} {type : Ty} {value : Value} {place : Place} :
    define before type value g = .ok (code, place) g' ↔
      code = before ++ [.define type (g.temporaries + 1) value] ∧
        place = .temporary (g.temporaries + 1) ∧
        g' = { g with temporaries := g.temporaries + 1 } := by
  constructor
  · rintro ⟨⟩
    exact ⟨rfl, rfl, rfl⟩
  · rintro ⟨rfl, rfl, rfl⟩
    rfl

theorem operation_eq_ok_iff {mark : Mark} {type : Ty} {op : BinOp} {left right : Place}
    {value : Value} :
    operation mark type op left right g = .ok value g' ↔
      g' = g ∧ (type ≠ .string ∧ value = .operation op left right ∨
        type = .string ∧ op = .add ∧ value = .concat left right) := by
  unfold operation
  by_cases htype : type = .string
  · by_cases hop : op = .add
    · simp [htype, hop, and_comm]
    · simp [htype, hop]
  · simp [htype, and_comm]

/-! ## Expressions -/

/-- The definition of a temporary with a value of its type. -/
theorem run_define_of_ok {temporaries : Temporaries V} {w : World V} {type : Ty} {index : Nat}
    {value : Value} {v : V}
    (h : value.eval I symbols temporaries w.store = .ok ⟨type, v⟩) :
    Instr.run I symbols bound temporaries (.define type index value) w =
      .ok (some ((index, ⟨type, v⟩) :: temporaries)) w := by
  rw [Instr.run]
  refine bind_of_ok (ofStore_eq_ok_iff.mpr ⟨?_, rfl⟩)
  rw [h, ok_bind]
  simp [Interpretation.convert]

theorem run_define_of_error {temporaries : Temporaries V} {w : World V} {type : Ty} {index : Nat}
    {value : Value} {halt : Halt T}
    (h : value.eval I symbols temporaries w.store = .error halt) :
    Instr.run I symbols bound temporaries (.define type index value) w = .error halt w := by
  rw [Instr.run]
  refine bind_of_error (ofStore_eq_error_iff.mpr ⟨?_, rfl⟩)
  rw [h, error_bind]

/-- Code that ends in the definition of a temporary, with an initializer that gives the
value or fails as the value does. -/
theorem Computes.define {kept index : Nat} {code : List Instr} {type : Ty} {initializer : Value}
    {value : (String → V) → Except (Halt T) (Datum V)} (hindex : kept < index)
    (hok : ∀ (temporaries : Temporaries V) {w : World V} {d : Datum V}, value w.store = .ok d →
      d.type = type ∧ ∃ temporaries',
        Instr.runAll I symbols bound temporaries code w = .ok (some temporaries') w ∧
        initializer.eval I symbols temporaries' w.store = .ok d ∧
        ∀ i ≤ kept, temporaries'.lookup i = temporaries.lookup i)
    (herror : ∀ (temporaries : Temporaries V) {w : World V} {halt : Halt T},
      value w.store = .error halt →
      Instr.runAll I symbols bound temporaries code w = .error halt w ∨ ∃ temporaries',
        Instr.runAll I symbols bound temporaries code w = .ok (some temporaries') w ∧
        initializer.eval I symbols temporaries' w.store = .error halt) :
    Computes I symbols bound kept (code ++ [.define type index initializer])
      (.temporary index) value where
  ok := by
    intro temporaries w d hd
    obtain ⟨rfl, temporaries', hcode, hvalue, hkept⟩ := hok temporaries hd
    refine ⟨(index, d) :: temporaries', ?_, ?_, fun i hi => ?_⟩
    · rw [runAll_append_of_ok hcode, runAll_cons_of_ok (run_define_of_ok hvalue), Instr.runAll]
      rfl
    · simp [Place.eval]
    · have hne : (i == index) = false := beq_false_of_ne (by omega)
      rw [List.lookup_cons, hne]
      exact hkept i hi
  error := by
    intro temporaries w halt hhalt
    rcases herror temporaries hhalt with hcode | ⟨temporaries', hcode, hvalue⟩
    · exact runAll_append_of_error hcode
    · rw [runAll_append_of_ok hcode, runAll_cons_of_error (run_define_of_error hvalue)]

/-- A literal. -/
theorem Computes.literal {kept index : Nat} {initializer : Value} {d : Datum V}
    (hindex : kept < index) (h : ∀ (temporaries : Temporaries V) (store : String → V),
      initializer.eval (T := T) I symbols temporaries store = .ok d) :
    Computes I symbols bound kept ([] ++ [.define d.type index initializer])
      (.temporary index) fun _ => .ok d := by
  refine .define hindex (fun temporaries {w d'} hd => ?_) nofun
  cases hd
  exact ⟨rfl, temporaries, by rw [Instr.runAll]; rfl, h temporaries w.store, fun _ _ => rfl⟩

theorem commonType?_of_promotes {left right type : Ty} (h : Ty.Promotes left right type) :
    commonType? left right = some type ∧ type ≠ .string := by
  cases h <;> decide

/-- An operation in C on operands with the types of the rules. -/
theorem eval_operation {op : BinOp} {leftType rightType type : Ty} {left right : Place} {l r : V}
    {temporaries : Temporaries V} {store : String → V} {initializer : Value}
    (hop : op.Types leftType rightType type)
    (hvalue : type ≠ .string ∧ initializer = .operation op left right ∨
      type = .string ∧ op = .add ∧ initializer = .concat left right)
    (hl : left.eval (T := T) symbols temporaries store = .ok ⟨leftType, l⟩)
    (hr : right.eval (T := T) symbols temporaries store = .ok ⟨rightType, r⟩) :
    initializer.eval I symbols temporaries store =
      I.combine op type ⟨leftType, l⟩ ⟨rightType, r⟩ := by
  cases hop with
  | numbers _ hpromotes =>
      obtain ⟨hcommon, htype⟩ := commonType?_of_promotes hpromotes
      rcases hvalue with ⟨-, rfl⟩ | ⟨hstring, -⟩
      · rw [Value.eval, hl, ok_bind, hr, ok_bind, hcommon]
      · exact absurd hstring htype
  | addStrings =>
      rcases hvalue with ⟨htype, -⟩ | ⟨-, -, rfl⟩
      · exact absurd rfl htype
      · rw [Value.eval, hl, ok_bind, hr, ok_bind, if_pos ⟨rfl, rfl⟩]
  | subStrings =>
      rcases hvalue with ⟨htype, -⟩ | ⟨-, hop, -⟩
      · exact absurd rfl htype
      · cases hop

/-- The place of a value is a variable or a temporary that there is. -/
def Place.Below (kept : Nat) : Place → Prop
  | .variable _ => True
  | .temporary index => index ≤ kept

theorem Place.Below.eval_eq {kept : Nat} {place : Place} (h : place.Below kept)
    {temporaries temporaries' : Temporaries V} {store : String → V}
    (hkept : ∀ index ≤ kept, temporaries'.lookup index = temporaries.lookup index) :
    place.eval (T := T) symbols temporaries' store =
      place.eval symbols temporaries store := by
  rcases place with name | index
  · rfl
  · rw [Place.eval, Place.eval, hkept index h]

/-- A negation of what some code computes. -/
theorem Computes.negate {kept index : Nat} {code : List Instr} {place : Place} {type : Ty}
    {value : (String → V) → Except (Halt T) (Datum V)}
    (h : Computes I symbols bound kept code place value) (hindex : kept < index)
    (hyields : ∀ store, Yields type (value store)) (htype : type ≠ .string) :
    Computes I symbols bound kept (code ++ [.define type index (.negate place)])
      (.temporary index) fun store => value store >>= I.minus := by
  have hnegated (store : String → V) : Yields type (value store >>= I.minus) :=
    (hyields store).bind fun v => yields_minus I type v
  refine .define hindex (fun temporaries {w d} hd => ?_) fun temporaries {w halt} hhalt => ?_
  · have hdType := (hnegated w.store).type_eq hd
    rcases hyields w.store with ⟨v, hv⟩ | ⟨cause, hcause⟩
    · obtain ⟨temporaries', hcode, hplace, hkept⟩ := h.ok temporaries hv
      rw [hv, ok_bind] at hd
      refine ⟨hdType, temporaries', hcode, ?_, hkept⟩
      rw [Value.eval, hplace, ok_bind, if_neg htype, hd]
    · rw [hcause, error_bind] at hd
      cases hd
  · rcases hyields w.store with ⟨v, hv⟩ | ⟨cause, hcause⟩
    · obtain ⟨temporaries', hcode, hplace, -⟩ := h.ok temporaries hv
      rw [hv, ok_bind] at hhalt
      refine .inr ⟨temporaries', hcode, ?_⟩
      rw [Value.eval, hplace, ok_bind, if_neg htype, hhalt]
    · rw [hcause, error_bind] at hhalt
      cases hhalt
      exact .inl (h.error temporaries hcause)

/-- An operation on what two pieces of code compute, one after the other. The place of the
left operand is still good behind the code for the right one. -/
theorem Computes.operation {kept kept' index : Nat} {leftCode rightCode : List Instr}
    {leftPlace rightPlace : Place} {leftType rightType type : Ty} {op : BinOp}
    {initializer : Value} {leftValue rightValue : (String → V) → Except (Halt T) (Datum V)}
    (hleft : Computes I symbols bound kept leftCode leftPlace leftValue)
    (hright : Computes I symbols bound kept' rightCode rightPlace rightValue)
    (hkept : kept ≤ kept') (hbelow : leftPlace.Below kept') (hindex : kept < index)
    (hleftYields : ∀ store, Yields leftType (leftValue store))
    (hrightYields : ∀ store, Yields rightType (rightValue store))
    (hop : op.Types leftType rightType type)
    (hvalue : type ≠ .string ∧ initializer = .operation op leftPlace rightPlace ∨
      type = .string ∧ op = .add ∧ initializer = .concat leftPlace rightPlace) :
    Computes I symbols bound kept (leftCode ++ rightCode ++ [.define type index initializer])
      (.temporary index)
      fun store => leftValue store >>= fun l => rightValue store >>= I.combine op type l := by
  have hboth (temporaries : Temporaries V) {w : World V} {l r : V}
      (hl : leftValue w.store = .ok ⟨leftType, l⟩)
      (hr : rightValue w.store = .ok ⟨rightType, r⟩) :
      ∃ temporaries',
        Instr.runAll I symbols bound temporaries (leftCode ++ rightCode) w =
          .ok (some temporaries') w ∧
        initializer.eval I symbols temporaries' w.store =
          I.combine op type ⟨leftType, l⟩ ⟨rightType, r⟩ ∧
        ∀ i ≤ kept, temporaries'.lookup i = temporaries.lookup i := by
    obtain ⟨middle, hleftCode, hleftPlace, hleftKept⟩ := hleft.ok temporaries hl
    obtain ⟨temporaries', hrightCode, hrightPlace, hrightKept⟩ := hright.ok middle hr
    -- The left place is only read here, behind the code for the right operand.
    rw [← hbelow.eval_eq hrightKept] at hleftPlace
    refine ⟨temporaries', ?_, eval_operation hop hvalue hleftPlace hrightPlace, fun i hi => ?_⟩
    · rw [runAll_append_of_ok hleftCode, hrightCode]
    · rw [hrightKept i (Nat.le_trans hi hkept), hleftKept i hi]
  have hyields (store : String → V) : Yields type
      (leftValue store >>= fun l => rightValue store >>= I.combine op type l) :=
    (hleftYields store).bind fun _ =>
      (hrightYields store).bind fun _ => yields_combine I op type _ _
  refine .define hindex (fun temporaries {w d} hd => ?_) fun temporaries {w halt} hhalt => ?_
  · have htype := (hyields w.store).type_eq hd
    rcases hleftYields w.store with ⟨l, hl⟩ | ⟨cause, hl⟩ <;> rw [hl] at hd
    · rcases hrightYields w.store with ⟨r, hr⟩ | ⟨cause, hr⟩ <;> rw [hr] at hd
      · obtain ⟨temporaries', hcode, hinit, hsame⟩ := hboth temporaries hl hr
        exact ⟨htype, temporaries', hcode, hinit.trans hd, hsame⟩
      · cases hd
    · cases hd
  · rcases hleftYields w.store with ⟨l, hl⟩ | ⟨cause, hl⟩ <;> rw [hl] at hhalt
    · rcases hrightYields w.store with ⟨r, hr⟩ | ⟨cause, hr⟩ <;> rw [hr] at hhalt
      · obtain ⟨temporaries', hcode, hinit, -⟩ := hboth temporaries hl hr
        exact .inr ⟨temporaries', hcode, hinit.trans hhalt⟩
      · cases hhalt
        obtain ⟨middle, hleftCode, -⟩ := hleft.ok temporaries hl
        refine .inl ?_
        rw [runAll_append_of_ok hleftCode]
        exact hright.error middle hr
    · cases hhalt
      exact .inl (runAll_append_of_error (hleft.error temporaries hl))

/-- The type on record for an expression is its type by the rules. -/
theorem Recorded.hasType {types : Table Nat Ty} {e : Expr} {type : Ty}
    (h : Recorded declared types e.postorder) (htype : types.get? e.id = some type) :
    e.HasType declared type := by
  obtain ⟨found, hfound, hrule⟩ := h e e.mem_postorder_self
  rw [htype] at hfound
  cases hfound
  exact hrule

/-- The code for a literal. -/
theorem computes_of_literal {mark : Mark} {initializer : Value} {d : Datum V} {code : List Instr}
    {place : Place} (htype : ∀ type, g.types.get? mark.id = some type → type = d.type)
    (heval : ∀ (temporaries : Temporaries V) (store : String → V),
      initializer.eval (T := T) I symbols temporaries store = .ok d)
    (h : (typeOf mark >>= fun type => define [] type initializer) g = .ok (code, place) g') :
    Grows g g' ∧ place.Below g'.temporaries ∧
      Computes I symbols bound g.temporaries code place fun _ => .ok d := by
  simp only [bind_eq_ok_iff, typeOf_eq_ok_iff, define_eq_ok_iff] at h
  obtain ⟨type, _, ⟨hfound, rfl⟩, rfl, rfl, rfl⟩ := h
  obtain rfl := htype type hfound
  exact ⟨.succ _, Nat.le_refl _, .literal (Nat.lt_succ_self _) heval⟩

/-- The code for an expression computes it into its place. -/
theorem lowerExpr_computes (hagree : Agree symbols declared) {e : Expr}
    {code : List Instr} {place : Place} (hrecorded : Recorded declared g.types e.postorder)
    (h : lowerExpr e g = .ok (code, place) g') :
    Grows g g' ∧ place.Below g'.temporaries ∧
      Computes I symbols bound g.temporaries code place
        fun store => e.eval I symbols store := by
  induction e generalizing g g' code place with
  | name mark x =>
      simp only [lowerExpr, bind_eq_ok_iff, typeOf_eq_ok_iff, pure_eq_ok_iff] at h
      obtain ⟨_, _, ⟨htype, rfl⟩, heq, rfl⟩ := h
      cases heq
      -- A variable stays where it is, so its value must not fail: it is declared.
      refine ⟨.refl _, trivial, fun temporaries {w d} hd => ?_,
        fun temporaries {w halt} hhalt => ?_⟩
      · exact ⟨temporaries, by rw [Instr.runAll]; rfl, hd, fun _ _ => rfl⟩
      · cases hrecorded.hasType (e := .name mark x) htype with
        | name _ hdeclared =>
            rw [Expr.eval, load, hagree _ _ hdeclared] at hhalt
            cases hhalt
  | int mark value =>
      refine computes_of_literal (d := ⟨.int, I.int value⟩) (fun type htype => ?_) (fun _ _ => rfl) h
      cases hrecorded.hasType (e := .int mark value) htype
      rfl
  | float mark value =>
      refine computes_of_literal (d := ⟨.float, I.float value⟩) (fun type htype => ?_) (fun _ _ => rfl) h
      cases hrecorded.hasType (e := .float mark value) htype
      rfl
  | string mark text =>
      refine computes_of_literal (d := ⟨.string, I.string text⟩) (fun type htype => ?_) (fun _ _ => rfl) h
      cases hrecorded.hasType (e := .string mark text) htype
      rfl
  | negate mark operand ih =>
      rw [lowerExpr, bind_eq_ok_iff] at h
      obtain ⟨type, _, htypeOf, h⟩ := h
      obtain ⟨htype, rfl⟩ := typeOf_eq_ok_iff.mp htypeOf
      by_cases hstring : type = .string
      · rw [if_pos hstring] at h
        cases h
      · rw [if_neg hstring, bind_eq_ok_iff] at h
        obtain ⟨⟨inner, operandPlace⟩, m, hoperand, h⟩ := h
        obtain ⟨rfl, rfl, rfl⟩ := define_eq_ok_iff.mp h
        obtain ⟨hgrows, hbelow, hcomputes⟩ := ih hrecorded.left hoperand
        have hnegation : (Expr.negate mark operand).HasType declared type :=
          hrecorded.hasType htype
        cases hnegation with
        | negate _ hoperandType =>
            exact ⟨hgrows.trans (.succ m), Nat.le_refl _,
              hcomputes.negate (Nat.lt_succ_of_le hgrows.temporaries)
                (operand.yields_eval I hagree hoperandType) hstring⟩
  | binary mark op left right ihleft ihright =>
      simp only [lowerExpr, bind_eq_ok_iff] at h
      obtain ⟨type, _, htypeOf, ⟨leftCode, leftPlace⟩, m, hleft, ⟨rightCode, rightPlace⟩, m',
        hright, initializer, _, hinitializer, hdefine⟩ := h
      obtain ⟨htype, rfl⟩ := typeOf_eq_ok_iff.mp htypeOf
      obtain ⟨rfl, hvalue⟩ := operation_eq_ok_iff.mp hinitializer
      obtain ⟨rfl, rfl, rfl⟩ := define_eq_ok_iff.mp hdefine
      have hbinary : (Expr.binary mark op left right).HasType declared type :=
        hrecorded.hasType htype
      rw [Expr.postorder] at hrecorded
      obtain ⟨hgrows, hbelow, hleftComputes⟩ := ihleft hrecorded.left.left hleft
      obtain ⟨hgrows', -, hrightComputes⟩ := ihright (hgrows.recorded hrecorded.left.right) hright
      have hall := hgrows.trans hgrows'
      refine ⟨hall.trans (.succ _), Nat.le_refl _, ?_⟩
      cases hbinary with
      | @binary _ _ _ _ leftType rightType _ hleftType hrightType hop =>
          have hcomputes := hleftComputes.operation hrightComputes hgrows.temporaries hbelow
            (Nat.lt_succ_of_le hall.temporaries) (left.yields_eval I hagree hleftType)
            (right.yields_eval I hagree hrightType) hop hvalue
          have heval : (fun store => (Expr.binary mark op left right).eval I symbols store) =
              fun store => left.eval I symbols store >>= fun l =>
                right.eval I symbols store >>= I.combine op type l := by
            funext store
            exact Expr.eval_binary I hagree hleftType hrightType hop store
          rw [heval]
          exact hcomputes

/-! ## Statements -/

/-- An instruction that does a part of a run and goes on with the same temporaries. -/
theorem Simulates.single {i : Instr} {r : Run V T Unit}
    (h : ∀ temporaries : Temporaries V,
      Instr.run I symbols bound temporaries i = r >>= fun _ => pure (some temporaries)) :
    Simulates I symbols bound [i] r where
  ok := by
    intro temporaries w w' hr
    have hi : Instr.run I symbols bound temporaries i w = .ok (some temporaries) w' := by
      rw [h, bind_of_ok hr]
      rfl
    exact ⟨temporaries, by rw [runAll_cons_of_ok hi, Instr.runAll]; rfl⟩
  error := by
    intro temporaries w w' halt hr
    refine runAll_cons_of_error ?_
    rw [h, bind_of_error hr]

theorem lowerRead_simulates {location : Location} {name : String} {code : List Instr}
    (hsymbols : g.symbols.entries = symbols) (h : lowerRead location name g = .ok code g') :
    g' = g ∧ Simulates I symbols bound code ((Stmt.read location name).run I symbols bound) := by
  unfold lowerRead at h
  rw [bind_eq_ok_iff] at h
  obtain ⟨_, _, hget, h⟩ := h
  obtain ⟨hcurrent, hafter⟩ := get_eq_ok_iff.mp hget
  rw [hcurrent, hafter] at h
  cases hfound : g.symbols.get? name with
  | none =>
      rw [hfound] at h
      cases h
  | some type =>
      have hlookup : symbols.lookup name = some type := by
        rw [← hsymbols]
        exact hfound
      have hread : (Stmt.read location name).run I symbols bound = I.read name type := by
        rw [Stmt.run]
        funext w
        have hload : (Run.ofStore fun store => load symbols store name : Run V T (Datum V)) w =
            .ok ⟨type, w.store name⟩ w :=
          ofStore_eq_ok_iff.mpr ⟨by rw [load, hlookup], rfl⟩
        exact bind_of_ok hload
      rw [hfound] at h
      rw [hread]
      -- Strings are read by a function of their own.
      cases type with
      | string =>
          obtain ⟨rfl, rfl⟩ := pure_eq_ok_iff.mp h
          refine ⟨rfl, .single fun temporaries => ?_⟩
          rw [Instr.run, if_pos hlookup]
      | int | float =>
          obtain ⟨rfl, rfl⟩ := pure_eq_ok_iff.mp h
          refine ⟨rfl, .single fun temporaries => ?_⟩
          rw [Instr.run, if_pos ⟨hlookup, by decide⟩]

/-- The condition of a branch or a loop is evaluated and then decides. -/
theorem holds_bind {α : Type} (condition : Expr) (f : Bool → Run V T α) :
    condition.holds I symbols >>= f =
      (Run.ofStore fun store => condition.eval I symbols store) >>= fun d =>
        f (I.holds d.type d.value) := by
  rw [Expr.holds, bind_assoc]
  rfl

mutual

/-- The code for a statement does what the statement does. -/
theorem lowerStmt_simulates (hagree : Agree symbols declared) :
    ∀ (s : Stmt) {g g' : Generator} {code : List Instr}, g.symbols.entries = symbols →
      Recorded declared g.types s.postorder → lowerStmt s g = .ok code g' →
      Grows g g' ∧ Simulates I symbols bound code (s.run I symbols bound)
  | .read location name, g, g', code, hsymbols, _, h => by
      obtain ⟨rfl, hsimulates⟩ := lowerRead_simulates hsymbols h
      exact ⟨.refl _, hsimulates⟩
  | .print location value, g, g', code, hsymbols, hrecorded, h => by
      simp only [lowerStmt, bind_eq_ok_iff, typeOf_eq_ok_iff, pure_eq_ok_iff] at h
      obtain ⟨⟨valueCode, place⟩, _, hvalue, type, _, ⟨htype, rfl⟩, rfl, rfl⟩ := h
      obtain ⟨hgrows, -, hcomputes⟩ := lowerExpr_computes hagree hrecorded hvalue
      rw [hgrows.types] at htype
      have hrule : value.HasType declared type := hrecorded.hasType htype
      refine ⟨hgrows, ?_⟩
      rw [Stmt.run]
      exact hcomputes.print fun {store d} hd => (value.yields_eval I hagree hrule store).type_eq hd
  | .assign location target value, g, g', code, hsymbols, hrecorded, h => by
      simp only [lowerStmt, bind_eq_ok_iff, pure_eq_ok_iff] at h
      obtain ⟨⟨valueCode, place⟩, _, hvalue, rfl, rfl⟩ := h
      obtain ⟨hgrows, -, hcomputes⟩ := lowerExpr_computes hagree hrecorded hvalue
      rw [Stmt.run]
      exact ⟨hgrows, hcomputes.assign target⟩
  | .branch location condition yes no, g, g', code, hsymbols, hrecorded, h => by
      simp only [lowerStmt, bind_eq_ok_iff, pure_eq_ok_iff] at h
      obtain ⟨⟨conditionCode, place⟩, m, hcondition, yesCode, m', hyes, noCode, _, hno, rfl, rfl⟩ :=
        h
      rw [Stmt.postorder] at hrecorded
      obtain ⟨hgrows, -, hcomputes⟩ := lowerExpr_computes hagree hrecorded.left.left hcondition
      obtain ⟨hgrows', hyesSimulates⟩ := lowerAll_simulates hagree yes (hgrows.entries hsymbols)
        (hgrows.recorded hrecorded.left.right) hyes
      have hboth := hgrows.trans hgrows'
      obtain ⟨hgrows'', hnoSimulates⟩ := lowerAll_simulates hagree no (hboth.entries hsymbols)
        (hboth.recorded hrecorded.right) hno
      refine ⟨hboth.trans hgrows'', ?_⟩
      rw [Stmt.run, holds_bind]
      exact hcomputes.branch hyesSimulates hnoSimulates
  | .loop location condition body, g, g', code, hsymbols, hrecorded, h => by
      simp only [lowerStmt, bind_eq_ok_iff, pure_eq_ok_iff] at h
      obtain ⟨⟨conditionCode, place⟩, m, hcondition, bodyCode, _, hbody, rfl, rfl⟩ := h
      obtain ⟨hgrows, -, hcomputes⟩ := lowerExpr_computes hagree hrecorded.left hcondition
      obtain ⟨hgrows', hbodySimulates⟩ := lowerAll_simulates hagree body (hgrows.entries hsymbols)
        (hgrows.recorded hrecorded.right) hbody
      refine ⟨hgrows.trans hgrows', ?_⟩
      rw [Stmt.run, holds_bind]
      exact hcomputes.loop hbodySimulates

theorem lowerAll_simulates (hagree : Agree symbols declared) :
    ∀ (statements : List Stmt) {g g' : Generator} {code : List Instr},
      g.symbols.entries = symbols →
      Recorded declared g.types (Stmt.postorderAll statements) →
      lowerAll statements g = .ok code g' →
      Grows g g' ∧ Simulates I symbols bound code (Stmt.runAll I symbols bound statements)
  | [], g, g', code, _, _, h => by
      rw [lowerAll, pure_eq_ok_iff] at h
      obtain ⟨rfl, rfl⟩ := h
      rw [Stmt.runAll]
      exact ⟨.refl _, .nil⟩
  | s :: rest, g, g', code, hsymbols, hrecorded, h => by
      simp only [lowerAll, bind_eq_ok_iff, pure_eq_ok_iff] at h
      obtain ⟨sCode, m, hs, restCode, _, hrest, rfl, rfl⟩ := h
      obtain ⟨hgrows, hsSimulates⟩ := lowerStmt_simulates hagree s hsymbols hrecorded.left hs
      obtain ⟨hgrows', hrestSimulates⟩ := lowerAll_simulates hagree rest (hgrows.entries hsymbols)
        (hgrows.recorded hrecorded.right) hrest
      rw [Stmt.runAll]
      exact ⟨hgrows.trans hgrows', hsSimulates.append hrestSimulates⟩

end

end ImpToC.C
