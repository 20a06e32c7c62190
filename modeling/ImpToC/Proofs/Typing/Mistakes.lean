import ImpToC.Proofs.Parsing.Numbering
import ImpToC.Proofs.Typing.Demands
import ImpToC.Proofs.Typing.Sessions

/-!
# The first mistake

A checker stops at the first demand of a program that is not kept, and has on record what was
demanded before. What comes behind that demand makes no difference.
-/

namespace ImpToC

/-! ## Demands that are kept or broken -/

/-- What is said of a variable that is not declared. -/
def undeclared (declared : List Declaration) (name : String) (l : Location) : Fault :=
  (Cause.undeclaredVariable name
    (Text.Similarity.closeMatches name (declared.map Declaration.name))).fault l

/-- What is said of a variable that is declared again. -/
def redeclared (first d : Declaration) : Fault :=
  (Cause.duplicateVariable d.name (some first.location)).fault d.location

namespace Demand

/-- A demand is kept: the rules give the types that it asks for. -/
def Kept (declared : List Declaration) : Demand → Prop
  | typed e => ∃ type, e.HasType declared type
  | read _ name => ∃ type, Declared declared name type
  | takes _ name value => ∃ targetType valueType, Declared declared name targetType ∧
      value.HasType declared valueType ∧ targetType.Assignable valueType
  | whole _ condition => condition.HasType declared .int

/-- A demand is broken, and what is said of it. -/
inductive Broken (declared : List Declaration) : Demand → Fault → Prop
  | name (m : Mark) {x : String} : (∀ type, ¬ Declared declared x type) →
      Broken declared (typed (.name m x)) (undeclared declared x m.location)
  | operation (m : Mark) {op : BinOp} {left right : Expr} {leftType rightType : Ty} :
      left.HasType declared leftType → right.HasType declared rightType →
      (∀ type, ¬ op.Types leftType rightType type) →
      Broken declared (typed (.binary m op left right))
        ((Cause.illTypedOperation op leftType rightType).fault m.location)
  | read (l : Location) {x : String} : (∀ type, ¬ Declared declared x type) →
      Broken declared (read l x) (undeclared declared x l)
  | target (l : Location) {x : String} (value : Expr) : (∀ type, ¬ Declared declared x type) →
      Broken declared (takes l x value) (undeclared declared x l)
  | fits (l : Location) {x : String} {value : Expr} {targetType valueType : Ty} :
      Declared declared x targetType → value.HasType declared valueType →
      ¬ targetType.Assignable valueType →
      Broken declared (takes l x value) ((Cause.unexpectedType targetType valueType).fault l)
  | whole (l : Location) {condition : Expr} {type : Ty} :
      condition.HasType declared type → type ≠ .int →
      Broken declared (whole l condition) ((Cause.unexpectedType .int type).fault l)

/-- A demand that is broken is not kept. -/
theorem Broken.not_kept {declared : List Declaration} {demand : Demand} {f : Fault}
    (hnodup : (declared.map Declaration.name).Nodup) (h : demand.Broken declared f) :
    ¬ demand.Kept declared := by
  cases h with
  | name m hnone =>
      rintro ⟨type, htype⟩
      cases htype with
      | name _ hdeclared => exact hnone type hdeclared
  | operation m hleft hright hnone =>
      rintro ⟨type, htype⟩
      cases htype with
      | binary _ hleft' hright' hop =>
          obtain rfl := hleft.unique hnodup hleft'
          obtain rfl := hright.unique hnodup hright'
          exact hnone type hop
  | read l hnone =>
      rintro ⟨type, hdeclared⟩
      exact hnone type hdeclared
  | target l value hnone =>
      rintro ⟨type, -, hdeclared, -⟩
      exact hnone type hdeclared
  | fits l htarget hvalue hnot =>
      rintro ⟨targetType, valueType, htarget', hvalue', hassignable⟩
      obtain rfl := htarget.unique hnodup htarget'
      obtain rfl := hvalue.unique hnodup hvalue'
      exact hnot hassignable
  | whole l htype hne =>
      intro hint
      exact hne (hint.unique hnodup htype)

end Demand

namespace Checker

variable {declared : List Declaration} {es : List Expr} {c : Checker}

/-! ## Variables -/

theorem Declares.keys_symbols (h : c.Declares declared) :
    c.symbols.keys = declared.map Declaration.name := by
  rw [Table.keys, h.symbols, List.map_map]
  rfl

theorem Declares.get?_symbols_iff (h : c.Declares declared) {name : String} {type : Ty} :
    c.symbols.get? name = some type ↔ Declared declared name type := by
  rw [Table.get?_eq_some_iff, h.symbols, List.mem_map]
  simp [Declared]

theorem lookup_cases (h : c.Declares declared) (name : String) (l : Location) :
    (∃ type, Declared declared name type ∧ lookup name l c = .ok type c) ∨
      (∀ type, ¬ Declared declared name type) ∧
        lookup name l c = .error (.fault (undeclared declared name l)) c := by
  have hget : (get : Pass Checker) c = .ok c c := rfl
  unfold lookup
  rw [bind_of_ok hget, undeclared, ← h.keys_symbols]
  cases hfound : c.symbols.get? name with
  | some type => exact .inl ⟨type, h.get?_symbols_iff.mp hfound, rfl⟩
  | none =>
      refine .inr ⟨fun type htype => ?_, rfl⟩
      rw [h.get?_symbols_iff.mpr htype] at hfound
      cases hfound

theorem declare_cases (h : c.Declares declared) (d : Declaration) :
    (∃ c', declare d c = .ok () c' ∧ c'.Declares (declared ++ [d]) ∧ c'.types = c.types) ∨
      ∃ first ∈ declared, first.name = d.name ∧
        declare d c = .error (.fault (redeclared first d)) c := by
  have hget : (get : Pass Checker) c = .ok c c := rfl
  unfold declare
  rw [bind_of_ok hget]
  cases hfound : c.symbols.get? d.name with
  | none =>
      have hnew : d.name ∉ c.symbols.keys := Table.get?_eq_none_iff.mp hfound
      refine .inl ⟨_, rfl, ⟨?_, ?_⟩, rfl⟩
      · rw [Table.entries_insert_of_not_mem d.type hnew, h.symbols, List.map_append]
        rfl
      · rw [← h.keys] at hnew
        rw [Table.entries_insert_of_not_mem d.location hnew, h.declaredAt, List.map_append]
        rfl
  | some type =>
      cases hplace : c.declaredAt.get? d.name with
      | none =>
          have hmissing := Table.get?_eq_none_iff.mp hplace
          rw [h.keys, ← Table.get?_eq_none_iff, hfound] at hmissing
          cases hmissing
      | some place =>
          have hmem := Table.get?_eq_some_iff.mp hplace
          rw [h.declaredAt] at hmem
          obtain ⟨first, hfirst, heq⟩ := List.mem_map.mp hmem
          obtain ⟨hname, rfl⟩ := Prod.mk.inj heq
          exact .inr ⟨first, hfirst, hname, rfl⟩

/-- Declarations in turn pass, or the first one stops them that declares a name again. -/
theorem forM_declare_cases (h : c.Declares declared) (declarations : List Declaration) :
    (∃ c', declarations.forM declare c = .ok () c' ∧ c'.Declares (declared ++ declarations) ∧
      c'.types = c.types) ∨
    ∃ front d first c', front ++ [d] <+: declarations ∧ first ∈ declared ++ front ∧
      first.name = d.name ∧ c'.Declares (declared ++ front) ∧ c'.types = c.types ∧
      ∀ back, (front ++ d :: back).forM declare c = .error (.fault (redeclared first d)) c' := by
  induction declarations generalizing declared c with
  | nil =>
      refine .inl ⟨c, rfl, ?_, rfl⟩
      rwa [List.append_nil]
  | cons d rest ih =>
      rcases declare_cases h d with ⟨m, hd, hm, htypes⟩ | ⟨first, hfirst, hname, hd⟩
      · rcases ih hm with ⟨c', hrest, hc', htypes'⟩ |
          ⟨front, d', first, c', hbegin, hfirst, hname, hc', htypes', hstop⟩
        · rw [List.append_assoc] at hc'
          exact .inl ⟨c', (bind_of_ok hd).trans hrest, hc', htypes'.trans htypes⟩
        · rw [List.append_assoc] at hfirst hc'
          exact .inr ⟨d :: front, d', first, c', List.cons_prefix_cons.mpr ⟨rfl, hbegin⟩, hfirst,
            hname, hc', htypes'.trans htypes, fun back => (bind_of_ok hd).trans (hstop back)⟩
      · refine .inr ⟨[], d, first, c, List.cons_prefix_cons.mpr ⟨rfl, List.nil_prefix⟩, ?_, hname,
          ?_, rfl, fun back => bind_of_error hd⟩
        · rwa [List.append_nil]
        · rwa [List.append_nil]

/-! ## One demand -/

/-- What a checker knows: the variables of some declarations, and the types of some expressions
that have been put on record in turn. -/
structure Knows (c : Checker) (declared : List Declaration) (es : List Expr) : Prop where
  declares : c.Declares declared
  keys : c.types.keys = es.map Expr.id
  typed : ∀ e ∈ es, ∃ type, c.types.get? e.id = some type ∧ e.HasType declared type

theorem Knows.recorded (h : c.Knows declared es) {e : Expr} (he : e ∈ es) :
    ∃ type, e.HasType declared type ∧ Checker.recorded e.id c = .ok type c := by
  obtain ⟨type, hfound, htype⟩ := h.typed e he
  exact ⟨type, htype, recorded_of_get? hfound⟩

/-- The type of an expression is found whose operands are on record, or what is wrong with it. -/
theorem infer_cases (h : c.Knows declared es) {e : Expr}
    (hoperands : ∀ operand ∈ e.operands, operand ∈ es) :
    (∃ type, e.HasType declared type ∧ infer e c = .ok type c) ∨
      ∃ f, (Demand.typed e).Broken declared f ∧ infer e c = .error (.fault f) c := by
  cases e with
  | name m x =>
      rcases lookup_cases h.declares x m.location with ⟨type, htype, hlookup⟩ | ⟨hnone, hlookup⟩
      · exact .inl ⟨type, .name m htype, hlookup⟩
      · exact .inr ⟨_, .name m hnone, hlookup⟩
  | int m value => exact .inl ⟨.int, .int m value, rfl⟩
  | float m value => exact .inl ⟨.float, .float m value, rfl⟩
  | string m text => exact .inl ⟨.string, .string m text, rfl⟩
  | negate m operand =>
      obtain ⟨type, htype, hrecorded⟩ := h.recorded (hoperands operand List.mem_cons_self)
      exact .inl ⟨type, .negate m htype, hrecorded⟩
  | binary m op left right =>
      obtain ⟨leftType, hleftFound, hleft⟩ := h.typed left (hoperands left List.mem_cons_self)
      obtain ⟨rightType, hrightFound, hright⟩ := h.typed right
        (hoperands right (List.mem_cons_of_mem left List.mem_cons_self))
      cases hresult : op.result? leftType rightType with
      | some type =>
          have hop := BinOp.result?_eq_some_iff.mp hresult
          exact .inl ⟨type, .binary m hleft hright hop,
            infer_binary hleftFound hrightFound hresult⟩
      | none =>
          have hnone := BinOp.result?_eq_none_iff.mp hresult
          exact .inr ⟨_, .operation m hleft hright hnone,
            infer_binary_error hleftFound hrightFound hresult⟩

/-- What is known with one more type on record. -/
theorem Knows.record (h : c.Knows declared es) {e : Expr} {type : Ty}
    (hnew : e.id ∉ es.map Expr.id) (htype : e.HasType declared type) :
    { c with types := c.types.insert e.id type }.Knows declared (es ++ [e]) := by
  have hkey : e.id ∉ c.types.keys := by
    rw [h.keys]
    exact hnew
  refine ⟨⟨h.declares.symbols, h.declares.declaredAt⟩, ?_, ?_⟩
  · rw [Table.keys_insert, if_neg hkey, h.keys, List.map_append]
    rfl
  · refine List.forall_mem_append.mpr ⟨?_, ?_⟩
    · intro other hother
      obtain ⟨found, hfound, hfoundType⟩ := h.typed other hother
      refine ⟨found, ?_, hfoundType⟩
      have hne : other.id ≠ e.id := fun heq => hnew (heq ▸ List.mem_map_of_mem hother)
      rw [← hfound]
      exact c.types.get?_insert_of_ne type hne
    · exact List.forall_mem_singleton.mpr ⟨type, c.types.get?_insert_self e.id type, htype⟩

/-- A checker that has on record what a demand reads meets it if it is kept, and goes on knowing;
if it is broken, the checker says so and stays as it is. -/
theorem meet_cases (h : c.Knows declared es) {demand : Demand} (hready : demand.Ready es)
    (hids : ((es ++ demand.exprs).map Expr.id).Nodup) :
    (demand.Kept declared ∧
      ∃ c', meet demand c = .ok () c' ∧ c'.Knows declared (es ++ demand.exprs)) ∨
    ∃ f, demand.Broken declared f ∧ meet demand c = .error (.fault f) c := by
  have hsame : demand.exprs = [] → c.Knows declared (es ++ demand.exprs) := by
    intro hnone
    rwa [hnone, List.append_nil]
  cases demand with
  | typed e =>
      rcases infer_cases h hready with ⟨type, htype, hinfer⟩ | ⟨f, hbroken, hinfer⟩
      · have hnew : e.id ∉ es.map Expr.id := by
          rw [List.map_append, List.nodup_append] at hids
          exact fun hmem => hids.2.2 e.id hmem e.id (List.mem_singleton_self e.id) rfl
        exact .inl ⟨⟨type, htype⟩, _, bind_of_ok hinfer, h.record hnew htype⟩
      · exact .inr ⟨f, hbroken, bind_of_error hinfer⟩
  | read l name =>
      rcases lookup_cases h.declares name l with ⟨type, htype, hlookup⟩ | ⟨hnone, hlookup⟩
      · exact .inl ⟨⟨type, htype⟩, c, bind_of_ok hlookup, hsame rfl⟩
      · exact .inr ⟨_, .read l hnone, bind_of_error hlookup⟩
  | takes l name value =>
      obtain ⟨valueType, hvalue, hrecorded⟩ := h.recorded (List.mem_of_getLast? hready)
      rw [meet, bind_of_ok hrecorded]
      rcases lookup_cases h.declares name l with ⟨type, htype, hlookup⟩ | ⟨hnone, hlookup⟩
      · rw [bind_of_ok hlookup]
        cases htakes : type.takes valueType with
        | true =>
            have hassignable := Ty.takes_iff.mp htakes
            exact .inl ⟨⟨type, valueType, htype, hvalue, hassignable⟩, c, rfl, hsame rfl⟩
        | false =>
            refine .inr ⟨_, .fits l htype hvalue fun hassignable => ?_, rfl⟩
            rw [Ty.takes_iff.mpr hassignable] at htakes
            cases htakes
      · exact .inr ⟨_, .target l value hnone, bind_of_error hlookup⟩
  | whole l condition =>
      obtain ⟨type, htype, hrecorded⟩ := h.recorded (List.mem_of_getLast? hready)
      rw [meet, bind_of_ok hrecorded]
      cases hint : type == .int with
      | true =>
          rw [beq_iff_eq.mp hint] at htype
          exact .inl ⟨htype, c, rfl, hsame rfl⟩
      | false => exact .inr ⟨_, .whole l htype (beq_eq_false_iff_ne.mp hint), rfl⟩

/-! ## Demands in turn -/

/-- A checker that knows some expressions meets the demands in front of a broken one and stops
there, whatever comes behind it. -/
structure StopsAt (c : Checker) (declared : List Declaration) (es : List Expr)
    (front : List Demand) (demand : Demand) (f : Fault) (after : Checker) : Prop where
  kept : ∀ d ∈ front, d.Kept declared
  broken : demand.Broken declared f
  ready : demand.Ready (es ++ front.flatMap Demand.exprs)
  knows : after.Knows declared (es ++ front.flatMap Demand.exprs)
  stops : ∀ back, meetAll (front ++ demand :: back) c = .error (.fault f) after

/-- Demands in turn are all kept and met, or the first one stops them that is broken. -/
theorem meetAll_cases {demands : List Demand} (h : c.Knows declared es)
    (hordered : Demand.Ordered es demands)
    (hids : ((es ++ demands.flatMap Demand.exprs).map Expr.id).Nodup) :
    ((∀ d ∈ demands, d.Kept declared) ∧ ∃ c', meetAll demands c = .ok () c' ∧
      c'.Knows declared (es ++ demands.flatMap Demand.exprs)) ∨
    ∃ front demand f after, front ++ [demand] <+: demands ∧
      StopsAt c declared es front demand f after := by
  induction hordered generalizing c with
  | nil es =>
      refine .inl ⟨nofun, c, rfl, ?_⟩
      rwa [List.flatMap_nil, List.append_nil]
  | @cons es demand rest hready _ ih =>
      rw [List.flatMap_cons, ← List.append_assoc] at hids
      have hfirst : ((es ++ demand.exprs).map Expr.id).Nodup := by
        rw [List.map_append] at hids
        exact hids.of_append_left
      rcases meet_cases h hready hfirst with ⟨hkept, m, hmeet, hm⟩ | ⟨f, hbroken, hmeet⟩
      · rcases ih hm hids with ⟨hrest, c', hmeetRest, hc'⟩ |
          ⟨front, other, f, after, hbegin, hstop⟩
        · refine .inl ⟨List.forall_mem_cons.mpr ⟨hkept, hrest⟩, c',
            (bind_of_ok hmeet).trans hmeetRest, ?_⟩
          rwa [List.flatMap_cons, ← List.append_assoc]
        · have hready := hstop.ready
          have hknows := hstop.knows
          rw [List.append_assoc, ← List.flatMap_cons] at hready hknows
          exact .inr ⟨demand :: front, other, f, after, List.cons_prefix_cons.mpr ⟨rfl, hbegin⟩,
            List.forall_mem_cons.mpr ⟨hkept, hstop.kept⟩, hstop.broken, hready, hknows,
            fun back => (bind_of_ok hmeet).trans (hstop.stops back)⟩
      · refine .inr ⟨[], demand, f, c, List.cons_prefix_cons.mpr ⟨rfl, List.nil_prefix⟩, nofun,
          hbroken, ?_, ?_, fun back => bind_of_error hmeet⟩
        · rwa [List.flatMap_nil, List.append_nil]
        · rwa [List.flatMap_nil, List.append_nil]

end Checker

/-! ## How far a checker comes -/

/-- Numbers that count some expressions count the first ones of them. -/
theorem map_id_of_isPrefix {es front : List Expr} (h : es.map Expr.id = List.range es.length)
    (hfront : front <+: es) : front.map Expr.id = List.range front.length := by
  obtain ⟨more, rfl⟩ := hfront
  rw [List.map_append, List.length_append, List.range_add] at h
  exact (List.append_inj h (by simp)).1

theorem length_eq_id {front : List Expr} {e : Expr}
    (h : (front ++ [e]).map Expr.id = List.range (front ++ [e]).length) : front.length = e.id := by
  rw [List.map_append, List.length_append, List.length_singleton, List.range_succ] at h
  exact (List.singleton_inj.mp (List.append_inj h (by simp)).2).symm

/-- How many expressions have their types on record where a demand is broken, which comes behind
some others. -/
def Demand.reached (front : List Demand) : Demand → Nat
  | typed e => e.id
  | read .. => (front.flatMap exprs).length
  | takes _ _ value => value.id + 1
  | whole _ condition => condition.id + 1

theorem Demand.length_eq_reached {es : List Expr} (hids : es.map Expr.id = List.range es.length)
    {front : List Demand} {demand : Demand}
    (hfront : front.flatMap exprs ++ demand.exprs <+: es)
    (hready : demand.Ready (front.flatMap exprs)) :
    (front.flatMap exprs).length = demand.reached front := by
  have hlast {value : Expr} (hvalue : (front.flatMap exprs).getLast? = some value) :
      (front.flatMap exprs).length = value.id + 1 := by
    have hcounted := map_id_of_isPrefix hids ((List.prefix_append _ _).trans hfront)
    obtain ⟨init, hinit⟩ := List.getLast?_eq_some_iff.mp hvalue
    rw [hinit] at hcounted
    rw [hinit, List.length_append, length_eq_id hcounted]
    rfl
  cases demand with
  | typed e => exact length_eq_id (map_id_of_isPrefix hids hfront)
  | read => rfl
  | takes l name value => exact hlast hready
  | whole l condition => exact hlast hready

/-! ## Statements that are the same up to one -/

/-- The last of some demands lies in the first part of a list, or in the second part behind the
whole first part. -/
theorem Demand.isPrefix_append_cases {front first second : List Demand} {demand : Demand}
    (h : front ++ [demand] <+: first ++ second) :
    front ++ [demand] <+: first ∨
      ∃ inner, front = first ++ inner ∧ inner ++ [demand] <+: second := by
  rcases List.prefix_or_prefix_of_prefix h (List.prefix_append first second) with hfirst | hwhole
  · exact .inl hfirst
  · rcases List.prefix_concat_iff.mp hwhole with rfl | ⟨inner, rfl⟩
    · exact .inl (List.prefix_refl _)
    · rw [List.append_assoc, List.prefix_append_right_inj] at h
      exact .inr ⟨inner, rfl, h⟩

namespace Stmt

/-- Two lists of statements are the same up to a statement that is in both of them, maybe in
their blocks; what follows it may differ. In front of it there are some demands. -/
inductive SameUpTo (s : Stmt) : List Demand → List Stmt → List Stmt → Prop
  | here (rest rest' : List Stmt) : SameUpTo s [] (s :: rest) (s :: rest')
  | later (t : Stmt) {front : List Demand} {rest rest' : List Stmt} :
      SameUpTo s front rest rest' → SameUpTo s (t.demands ++ front) (t :: rest) (t :: rest')
  | yes (l : Location) (condition : Expr) {front : List Demand} {yes yes' : List Stmt}
      (no no' rest rest' : List Stmt) : SameUpTo s front yes yes' →
      SameUpTo s ((branch l condition yes no).own ++ front)
        (branch l condition yes no :: rest) (branch l condition yes' no' :: rest')
  | no (l : Location) (condition : Expr) (yes : List Stmt) {front : List Demand}
      {no no' : List Stmt} (rest rest' : List Stmt) : SameUpTo s front no no' →
      SameUpTo s ((branch l condition yes no).own ++ (demandsAll yes ++ front))
        (branch l condition yes no :: rest) (branch l condition yes no' :: rest')
  | body (l : Location) (condition : Expr) {front : List Demand} {body body' : List Stmt}
      (rest rest' : List Stmt) : SameUpTo s front body body' →
      SameUpTo s ((loop l condition body).own ++ front)
        (loop l condition body :: rest) (loop l condition body' :: rest')

theorem own_isPrefix_demands (s : Stmt) : s.own <+: s.demands := by
  cases s with
  | read | print | assign => simp only [demands, List.prefix_refl]
  | branch | loop => simp only [demands, List.prefix_append]

/-- Up to the statement there are the same demands. -/
theorem SameUpTo.isPrefix {s : Stmt} {front : List Demand} {statements statements' : List Stmt}
    (h : SameUpTo s front statements statements') :
    front ++ s.own <+: demandsAll statements' := by
  induction h with
  | here rest rest' =>
      rw [demandsAll]
      exact s.own_isPrefix_demands.trans (List.prefix_append _ _)
  | later t _ ih =>
      rw [demandsAll, List.append_assoc]
      exact (List.prefix_append_right_inj _).mpr ih
  | yes l condition no no' rest rest' _ ih =>
      obtain ⟨more, hmore⟩ := ih
      refine ⟨more ++ (demandsAll no' ++ demandsAll rest'), ?_⟩
      simp [demandsAll, demands, own, ← hmore]
  | no l condition yes rest rest' _ ih =>
      obtain ⟨more, hmore⟩ := ih
      refine ⟨more ++ demandsAll rest', ?_⟩
      simp [demandsAll, demands, own, ← hmore]
  | body l condition rest rest' _ ih =>
      obtain ⟨more, hmore⟩ := ih
      refine ⟨more ++ demandsAll rest', ?_⟩
      simp [demandsAll, demands, own, ← hmore]

/-- A demand of some statements, behind some others, is one that a statement makes itself. -/
structure Makes (s : Stmt) (before : List Demand) (statements : List Stmt) (front : List Demand)
    (demand : Demand) : Prop where
  place : s.SameUpTo before statements statements
  own : ∃ inner, front = before ++ inner ∧ inner ++ [demand] <+: s.own

namespace Makes

variable {s : Stmt} {before front : List Demand} {demand : Demand}

theorem here (rest : List Stmt) (h : front ++ [demand] <+: s.own) :
    s.Makes [] (s :: rest) front demand :=
  ⟨.here rest rest, front, rfl, h⟩

theorem append {first : List Demand} {statements statements' : List Stmt}
    (h : s.Makes before statements front demand)
    (hplace : s.SameUpTo (first ++ before) statements' statements') :
    s.Makes (first ++ before) statements' (first ++ front) demand := by
  obtain ⟨inner, rfl, hinner⟩ := h.own
  exact ⟨hplace, inner, (List.append_assoc _ _ _).symm, hinner⟩

/-- Statements that are the same up to the one that makes a demand have the same demands up to
this one. -/
theorem isPrefix {statements statements' : List Stmt}
    (h : s.Makes before statements front demand)
    (hsame : s.SameUpTo before statements statements') :
    front ++ [demand] <+: demandsAll statements' := by
  obtain ⟨inner, rfl, hinner⟩ := h.own
  rw [List.append_assoc]
  exact ((List.prefix_append_right_inj before).mpr hinner).trans hsame.isPrefix

end Makes

mutual

theorem exists_makes_demands : ∀ (s : Stmt) {front : List Demand} {demand : Demand},
    front ++ [demand] <+: s.demands →
    ∃ (t : Stmt) (before : List Demand), ∀ rest, t.Makes before (s :: rest) front demand
  | .read .., front, demand, h | .print .., front, demand, h | .assign .., front, demand, h => by
      rw [demands] at h
      exact ⟨_, [], fun rest => .here rest h⟩
  | .branch l condition yes no, front, demand, h => by
      rw [demands] at h
      rcases Demand.isPrefix_append_cases h with hown | ⟨blocks, rfl, hblocks⟩
      · exact ⟨_, [], fun rest => .here rest hown⟩
      · rcases Demand.isPrefix_append_cases hblocks with hyes | ⟨inner, rfl, hno⟩
        · obtain ⟨t, before, ht⟩ := exists_makes_demandsAll yes hyes
          exact ⟨t, _, fun rest => ht.append (.yes l condition no no rest rest ht.place)⟩
        · obtain ⟨t, before, ht⟩ := exists_makes_demandsAll no hno
          refine ⟨t, (branch l condition yes no).own ++ (demandsAll yes ++ before), fun rest => ?_⟩
          have hplace := SameUpTo.no l condition yes rest rest ht.place
          rw [← List.append_assoc] at hplace ⊢
          rw [← List.append_assoc]
          exact ht.append hplace
  | .loop l condition body, front, demand, h => by
      rw [demands] at h
      rcases Demand.isPrefix_append_cases h with hown | ⟨inner, rfl, hbody⟩
      · exact ⟨_, [], fun rest => .here rest hown⟩
      · obtain ⟨t, before, ht⟩ := exists_makes_demandsAll body hbody
        exact ⟨t, _, fun rest => ht.append (.body l condition rest rest ht.place)⟩

/-- Each demand of some statements is one that a statement among them or in their blocks makes
itself. -/
theorem exists_makes_demandsAll : ∀ (statements : List Stmt) {front : List Demand}
    {demand : Demand}, front ++ [demand] <+: demandsAll statements →
    ∃ (t : Stmt) (before : List Demand), t.Makes before statements front demand
  | [], front, demand, h => by
      rw [demandsAll, List.prefix_nil] at h
      cases List.append_eq_nil_iff.mp h |>.2
  | s :: rest, front, demand, h => by
      rw [demandsAll] at h
      rcases Demand.isPrefix_append_cases h with hs | ⟨inner, rfl, hrest⟩
      · obtain ⟨t, before, ht⟩ := exists_makes_demands s hs
        exact ⟨t, before, ht rest⟩
      · obtain ⟨t, before, ht⟩ := exists_makes_demandsAll rest hrest
        exact ⟨t, _, ht.append (.later s ht.place)⟩

end

end Stmt

namespace Checker

/-! ## Programs -/

/-- A program passes: all its demands are kept, and all is on record. -/
structure Passes (p : Program) (result : Option Stop × Checker) : Prop where
  stop : result.1 = none
  names : (p.declarations.map Declaration.name).Nodup
  kept : ∀ demand ∈ Stmt.demandsAll p.statements, demand.Kept p.declarations
  symbols : result.2.symbols.entries = p.declarations.map fun d => (d.name, d.type)
  types : result.2.types.keys = List.range p.expressions.length

/-- A program declares a name again, behind some other declarations. Those are on record then,
and nothing else; and what comes behind the failing declaration makes no difference. -/
structure FailsToDeclare (p : Program) (front : List Declaration) (d : Declaration)
    (result : Option Stop × Checker) : Prop where
  declarations : front ++ [d] <+: p.declarations
  names : (front.map Declaration.name).Nodup
  fault : ∃ first ∈ front, first.name = d.name ∧ result.1 = some (.fault (redeclared first d))
  symbols : result.2.symbols.entries = front.map fun d => (d.name, d.type)
  types : result.2.types.keys = []
  unaffected : ∀ q : Program, front ++ [d] <+: q.declarations → empty.check q = result

/-- A demand of a program is broken, and those in front of it are kept. All variables and the
types of the first expressions are on record then; and what comes behind the failing demand makes
no difference, nor do the statements behind the one that makes this demand. -/
structure FailsToMeet (p : Program) (front : List Demand) (demand : Demand)
    (result : Option Stop × Checker) : Prop where
  names : (p.declarations.map Declaration.name).Nodup
  demands : front ++ [demand] <+: Stmt.demandsAll p.statements
  kept : ∀ d ∈ front, d.Kept p.declarations
  not_kept : ¬ demand.Kept p.declarations
  fault : ∃ f, demand.Broken p.declarations f ∧ result.1 = some (.fault f)
  symbols : result.2.symbols.entries = p.declarations.map fun d => (d.name, d.type)
  types : result.2.types.keys = List.range (demand.reached front)
  unaffected : ∀ q : Program, q.declarations = p.declarations →
    front ++ [demand] <+: Stmt.demandsAll q.statements → empty.check q = result
  statement : ∃ (s : Stmt) (before : List Demand), s.Makes before p.statements front demand
  behind : ∀ (s : Stmt) (before : List Demand) (statements : List Stmt),
    s.Makes before p.statements front demand → s.SameUpTo before p.statements statements →
    empty.check ⟨p.declarations, statements⟩ = result

theorem check_of_ok {c c' : Checker} {p : Program} (h : checkProgram p c = .ok () c') :
    c.check p = (none, c') := by
  rw [check, h]

theorem check_of_error {c c' : Checker} {p : Program} {stop : Stop}
    (h : checkProgram p c = .error stop c') : c.check p = (some stop, c') := by
  rw [check, h]

theorem checkProgram_of_declarations {c m : Checker} {p : Program}
    (h : p.declarations.forM declare c = .ok () m) :
    checkProgram p c = meetAll (Stmt.demandsAll p.statements) m := by
  rw [checkProgram, bind_of_ok h, checkStmts_eq_meetAll]

theorem failsToDeclare_of_stop {p : Program} {front : List Declaration} {d first : Declaration}
    {m : Checker} (hbegin : front ++ [d] <+: p.declarations) (hfirst : first ∈ front)
    (hname : first.name = d.name) (hdeclares : m.Declares front) (htypes : m.types = empty.types)
    (hstop : ∀ back, (front ++ d :: back).forM declare empty =
      .error (.fault (redeclared first d)) m) : FailsToDeclare p front d (empty.check p) := by
  have hcheck (q : Program) (hq : front ++ [d] <+: q.declarations) :
      empty.check q = (some (.fault (redeclared first d)), m) := by
    obtain ⟨back, hback⟩ := hq
    rw [List.append_assoc, List.singleton_append] at hback
    apply check_of_error
    rw [checkProgram, ← hback]
    exact bind_of_error (hstop back)
  rw [hcheck p hbegin]
  exact ⟨hbegin, hdeclares.nodup, ⟨first, hfirst, hname, rfl⟩, hdeclares.symbols,
    congrArg Table.keys htypes, hcheck⟩

theorem failsToMeet_of_stopsAt {p : Program} {front : List Demand} {demand : Demand} {f : Fault}
    {m c : Checker} (hids : p.postorder.map Expr.id = List.range p.postorder.length)
    (hdeclared : p.declarations.forM declare empty = .ok () m)
    (hnames : (p.declarations.map Declaration.name).Nodup)
    (hbegin : front ++ [demand] <+: Stmt.demandsAll p.statements)
    (hstop : StopsAt m p.declarations [] front demand f c) :
    FailsToMeet p front demand (empty.check p) := by
  have hcheck (q : Program) (hdeclarations : q.declarations = p.declarations)
      (hq : front ++ [demand] <+: Stmt.demandsAll q.statements) :
      empty.check q = (some (.fault f), c) := by
    obtain ⟨back, hback⟩ := hq
    rw [List.append_assoc, List.singleton_append] at hback
    rw [← hdeclarations] at hdeclared
    apply check_of_error
    rw [checkProgram_of_declarations hdeclared, ← hback]
    exact hstop.stops back
  have hknows := hstop.knows
  have hready := hstop.ready
  rw [List.nil_append] at hknows hready
  have hfront : front.flatMap Demand.exprs ++ demand.exprs <+: p.postorder := by
    obtain ⟨back, hback⟩ := hbegin
    refine ⟨back.flatMap Demand.exprs, ?_⟩
    rw [Program.postorder, ← Stmt.flatMap_exprs_demandsAll, ← hback]
    simp
  rw [hcheck p rfl hbegin]
  refine ⟨hnames, hbegin, hstop.kept, hstop.broken.not_kept hnames, ⟨f, hstop.broken, rfl⟩,
    hknows.declares.symbols, ?_, hcheck, Stmt.exists_makes_demandsAll p.statements hbegin, ?_⟩
  · rw [hknows.keys, ← Demand.length_eq_reached hids hfront hready]
    exact map_id_of_isPrefix hids ((List.prefix_append _ _).trans hfront)
  · intro s before statements hmakes hsame
    exact hcheck ⟨p.declarations, statements⟩ rfl (hmakes.isPrefix hsame)

/-- A check of a program that a parser has made stops at the first mistake, or passes where there
is none. Mistakes are looked for in the declarations and then in the demands of the statements,
in their order. The numbers of the expressions whose types are on record count up from zero: to
the number of an expression that has no type; to that of the value or the condition that does
not fit, and one further; or over all expressions in front of a variable that cannot be read. -/
theorem check_stops_at_first_mistake {host : Host} {s : Sentence} {p : Program}
    (h : Parser.parse host s = .ok p) :
    Passes p (empty.check p) ∨ (∃ front d, FailsToDeclare p front d (empty.check p)) ∨
      ∃ front demand, FailsToMeet p front demand (empty.check p) := by
  have hids : p.postorder.map Expr.id = List.range p.postorder.length :=
    Parser.map_id_postorder_of_parse h
  rcases forM_declare_cases declares_empty p.declarations with
    ⟨m, hdeclared, hdeclares, htypes⟩ |
    ⟨front, d, first, m, hbegin, hfirst, hname, hdeclares, htypes, hstop⟩
  · rw [List.nil_append] at hdeclares
    have hknows : m.Knows p.declarations [] := ⟨hdeclares, congrArg Table.keys htypes, nofun⟩
    have hexprs := Stmt.flatMap_exprs_demandsAll p.statements
    have hnodup := Parser.nodup_ids_of_parse h
    rw [Program.postorder, ← hexprs] at hnodup
    rcases meetAll_cases hknows (Stmt.ordered_demandsAll p.statements []) hnodup with
      ⟨hkept, c, hmeet, hc⟩ | ⟨front, demand, f, c, hbegin, hstop⟩
    · left
      rw [check_of_ok ((checkProgram_of_declarations hdeclared).trans hmeet)]
      refine ⟨rfl, hdeclares.nodup, hkept, hc.declares.symbols, ?_⟩
      rw [hc.keys, List.nil_append, hexprs, p.expressions_perm.length_eq]
      exact hids
    · exact .inr (.inr ⟨front, demand,
        failsToMeet_of_stopsAt hids hdeclared hdeclares.nodup hbegin hstop⟩)
  · exact .inr (.inl ⟨front, d, failsToDeclare_of_stop hbegin hfirst hname hdeclares htypes hstop⟩)

/-- The program `print 1; read y; print z;` is stopped at its second statement: the type of `1` is
on record then, and `z` is not looked at. -/
theorem check_stops_at_first_mistake_read :
    let words : List Lexeme :=
      [.symbol .printWord, .int ⟨"1", rfl⟩, .symbol .semicolon, .symbol .readWord, .name "y",
        .symbol .semicolon, .symbol .printWord, .name "z", .symbol .semicolon]
    let p : Program := ⟨[], [.print default (.int ⟨0, default⟩ 1), .read default "y",
      .print default (.name ⟨1, default⟩ "z")]⟩
    Parser.parse .unlimited ⟨words.map (⟨·, default⟩), default, by decide⟩ = .ok p ∧
      (empty.check p).1 = some (.fault (undeclared [] "y" default)) ∧
      (empty.check p).2.types.keys = [0] ∧
      ∃ front demand, FailsToMeet p front demand (empty.check p) := by
  intro words p
  have hp : Parser.parse .unlimited ⟨words.map (⟨·, default⟩), default, by decide⟩ = .ok p :=
    (Parser.parse_unlimited _).trans rfl
  have hstop : (empty.check p).1 = some (.fault (undeclared [] "y" default)) := by
    decide +kernel
  have hkeys : (empty.check p).2.types.keys = [0] := by
    decide +kernel
  refine ⟨hp, hstop, hkeys, ?_⟩
  rcases check_stops_at_first_mistake hp with hpasses | ⟨front, d, hfails⟩ | hfails
  · cases hstop.symm.trans hpasses.stop
  · have hnone : front ++ [d] = [] := List.prefix_nil.mp hfails.declarations
    cases List.append_eq_nil_iff.mp hnone |>.2
  · exact hfails

end Checker

end ImpToC
