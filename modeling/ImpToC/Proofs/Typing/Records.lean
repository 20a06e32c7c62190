import ImpToC.Proofs.Effects
import ImpToC.Proofs.Syntax.Expressions
import ImpToC.Proofs.Typing.Rules
import ImpToC.Typing

/-!
# What a check puts on record

A check of an expression or a statement succeeds just if the rules give it a type, and
then adds one entry for each expression in it, with the type that the rules give.
-/

namespace ImpToC

namespace Typing

/-- The variables on record are those of some declarations, in order. -/
def Scoped (t : Typing) (declared : List Declaration) : Prop :=
  t.scope.entries = declared.map fun d => (d.name, d)

/-- The numbers of some expressions are distinct and not on record. -/
def Fresh (t : Typing) (es : List Expr) : Prop := (t.types.keys ++ es.map Expr.id).Nodup

/-- All that changes is that the types of some expressions are put on record, in turn. -/
structure Records (declared : List Declaration) (es : List Expr) (t t' : Typing) : Prop where
  scope : t'.scope = t.scope
  added : ∃ entries, t'.types.entries = t.types.entries ++ entries ∧
    entries.map Prod.fst = es.map Expr.id ∧
    ∀ e ∈ es, ∃ type, (e.id, type) ∈ entries ∧ e.HasType declared type

variable {declared : List Declaration} {t m t' : Typing}

theorem Scoped.get?_eq_some_iff (h : t.Scoped declared) {name : String} {d : Declaration} :
    t.scope.get? name = some d ↔ d ∈ declared ∧ d.name = name := by
  rw [Table.get?_eq_some_iff, h, List.mem_map]
  constructor
  · rintro ⟨d', hd', heq⟩
    cases heq
    exact ⟨hd', rfl⟩
  · rintro ⟨hd, rfl⟩
    exact ⟨d, hd, rfl⟩

theorem lookup_eq_ok_iff (h : t.Scoped declared) {name : String} {location : Location} {type : Ty} :
    lookup name location t = .ok type t' ↔ Declared declared name type ∧ t' = t := by
  unfold lookup
  simp only [bind_eq_ok_iff, get_eq_ok_iff]
  constructor
  · rintro ⟨_, _, ⟨hcurrent, hafter⟩, hmatch⟩
    rw [hcurrent, hafter] at hmatch
    cases hd : t.scope.get? name with
    | none =>
        rw [hd] at hmatch
        cases hmatch
    | some d =>
        rw [hd] at hmatch
        obtain ⟨rfl, rfl⟩ := pure_eq_ok_iff.mp hmatch
        obtain ⟨hmem, hname⟩ := h.get?_eq_some_iff.mp hd
        exact ⟨⟨d, hmem, hname, rfl⟩, rfl⟩
  · rintro ⟨⟨d, hd, hname, rfl⟩, rfl⟩
    refine ⟨_, _, ⟨rfl, rfl⟩, ?_⟩
    rw [h.get?_eq_some_iff.mpr ⟨hd, hname⟩]
    rfl

theorem require_eq_ok_iff {accepted : Bool} {expected actual : Ty} {location : Location}
    {u : Unit} :
    require accepted expected actual location t = .ok u t' ↔ accepted = true ∧ t' = t := by
  cases accepted <;> simp [require]

namespace Records

theorem refl (t : Typing) : Records declared [] t t := ⟨rfl, [], by simp⟩

theorem trans {es es' : List Expr} (h : Records declared es t m) (h' : Records declared es' m t') :
    Records declared (es ++ es') t t' := by
  obtain ⟨hscope, entries, hentries, hkeys, htyped⟩ := h
  obtain ⟨hscope', entries', hentries', hkeys', htyped'⟩ := h'
  refine ⟨hscope'.trans hscope, entries ++ entries', ?_, by simp [hkeys, hkeys'], ?_⟩
  · rw [hentries', hentries, List.append_assoc]
  · intro e he
    rcases List.mem_append.mp he with he | he
    · obtain ⟨type, hmem, htype⟩ := htyped e he
      exact ⟨type, List.mem_append_left _ hmem, htype⟩
    · obtain ⟨type, hmem, htype⟩ := htyped' e he
      exact ⟨type, List.mem_append_right _ hmem, htype⟩

theorem keys {es : List Expr} (h : Records declared es t t') :
    t'.types.keys = t.types.keys ++ es.map Expr.id := by
  obtain ⟨-, entries, hentries, hkeys, -⟩ := h
  rw [Table.keys, hentries, List.map_append, hkeys]
  rfl

theorem keepsScope {es : List Expr} (h : Records declared es t t') (hscoped : t.Scoped declared) :
    t'.Scoped declared := by
  unfold Scoped
  rw [h.scope]
  exact hscoped

end Records

theorem Fresh.left {es es' : List Expr} (h : t.Fresh (es ++ es')) : t.Fresh es := by
  unfold Fresh at h ⊢
  rw [List.map_append, ← List.append_assoc] at h
  exact (List.nodup_append.mp h).1

theorem Fresh.right {es es' : List Expr} (h : t.Fresh (es ++ es')) (hm : Records declared es t m) :
    m.Fresh es' := by
  unfold Fresh at h ⊢
  rwa [hm.keys, List.append_assoc, ← List.map_append]

/-- Recording the type of one expression. -/
theorem records_of_record {e : Expr} {type type' : Ty} (hfresh : t.Fresh [e])
    (htype : e.HasType declared type) (h : record e.id type t = .ok type' t') :
    type' = type ∧ Records declared [e] t t' := by
  unfold record at h
  simp only [bind_eq_ok_iff, modify_eq_ok_iff, pure_eq_ok_iff] at h
  obtain ⟨_, _, rfl, rfl, rfl⟩ := h
  have hnew : e.id ∉ t.types.keys := by
    intro hmem
    exact (List.nodup_append.mp hfresh).2.2 _ hmem e.id (by simp) rfl
  exact ⟨rfl, rfl, [(e.id, type')], Table.entries_insert_of_not_mem type' hnew, rfl,
    by simpa using htype⟩

theorem exists_record (id : Nat) (type : Ty) (t : Typing) :
    ∃ t', record id type t = .ok type t' := ⟨_, rfl⟩

end Typing

open Typing

variable {declared : List Declaration}

/-- A check finds no type but the one that the rules give, and puts it on record. -/
theorem Expr.check_sound (e : Expr) {type : Ty} {t t' : Typing} (hscoped : t.Scoped declared)
    (hfresh : t.Fresh e.postorder) (h : e.check t = .ok type t') :
    e.HasType declared type ∧ Records declared e.postorder t t' := by
  induction e generalizing type t t' with
  | name mark x =>
      rw [check, bind_eq_ok_iff] at h
      obtain ⟨found, m, hlookup, hrecord⟩ := h
      obtain ⟨hdeclared, rfl⟩ := (lookup_eq_ok_iff hscoped).mp hlookup
      have htype : (Expr.name mark x).HasType declared found := .name mark hdeclared
      obtain ⟨rfl, hrecords⟩ := records_of_record hfresh htype hrecord
      exact ⟨htype, hrecords⟩
  | int mark value =>
      obtain ⟨rfl, hrecords⟩ := records_of_record hfresh (.int mark value) h
      exact ⟨.int mark value, hrecords⟩
  | float mark value =>
      obtain ⟨rfl, hrecords⟩ := records_of_record hfresh (.float mark value) h
      exact ⟨.float mark value, hrecords⟩
  | string mark text =>
      obtain ⟨rfl, hrecords⟩ := records_of_record hfresh (.string mark text) h
      exact ⟨.string mark text, hrecords⟩
  | negate mark operand ih =>
      rw [check, bind_eq_ok_iff] at h
      obtain ⟨found, m, hoperand, hrecord⟩ := h
      obtain ⟨hfound, hm⟩ := ih hscoped hfresh.left hoperand
      have htype : (Expr.negate mark operand).HasType declared found := .negate mark hfound
      obtain ⟨rfl, hrecords⟩ := records_of_record (hfresh.right hm) htype hrecord
      exact ⟨htype, hm.trans hrecords⟩
  | binary mark op left right ihleft ihright =>
      simp only [check, bind_eq_ok_iff] at h
      obtain ⟨leftType, m, hleft, rightType, m', hright, hresult⟩ := h
      rw [postorder, List.append_assoc] at hfresh
      obtain ⟨hleftType, hm⟩ := ihleft hscoped hfresh.left hleft
      -- What the left operand has put on record is apart from the numbers still to come.
      have hfresh' := hfresh.right hm
      obtain ⟨hrightType, hm'⟩ := ihright (hm.keepsScope hscoped) hfresh'.left hright
      cases hfound : op.result? leftType rightType with
      | none =>
          rw [hfound] at hresult
          cases hresult
      | some found =>
          rw [hfound] at hresult
          have htype : (Expr.binary mark op left right).HasType declared found :=
            .binary mark hleftType hrightType (BinOp.result?_eq_some_iff.mp hfound)
          obtain ⟨rfl, hrecords⟩ := records_of_record (hfresh'.right hm') htype hresult
          exact ⟨htype, (hm.trans hm').trans hrecords⟩

/-- A check finds the type that the rules give. -/
theorem Expr.check_complete {e : Expr} {type : Ty} (htype : e.HasType declared type) {t : Typing}
    (hscoped : t.Scoped declared) (hfresh : t.Fresh e.postorder) :
    ∃ t', e.check t = .ok type t' := by
  induction htype generalizing t with
  | name mark hdeclared =>
      obtain ⟨t', hrecord⟩ := exists_record mark.id _ t
      exact ⟨t',
        bind_eq_ok_iff.mpr ⟨_, _, (lookup_eq_ok_iff hscoped).mpr ⟨hdeclared, rfl⟩, hrecord⟩⟩
  | int mark | float mark | string mark => exact exists_record mark.id _ t
  | negate mark _ ih =>
      obtain ⟨m, hoperand⟩ := ih hscoped hfresh.left
      obtain ⟨t', hrecord⟩ := exists_record mark.id _ m
      exact ⟨t', bind_eq_ok_iff.mpr ⟨_, _, hoperand, hrecord⟩⟩
  | @binary mark op left right leftType rightType type _ _ hop ihleft ihright =>
      rw [postorder, List.append_assoc] at hfresh
      obtain ⟨m, hleft⟩ := ihleft hscoped hfresh.left
      -- The right operand is checked with the record that the left one leaves.
      obtain ⟨-, hm⟩ := left.check_sound hscoped hfresh.left hleft
      obtain ⟨m', hright⟩ := ihright (hm.keepsScope hscoped) (hfresh.right hm).left
      obtain ⟨t', hrecord⟩ := exists_record mark.id type m'
      refine ⟨t', ?_⟩
      simp only [check, bind_eq_ok_iff]
      refine ⟨_, _, hleft, _, _, hright, ?_⟩
      rw [BinOp.result?_eq_some_iff.mpr hop]
      exact hrecord

theorem Expr.checkCondition_eq_ok_iff {condition : Expr} {location : Location} {t t' : Typing}
    {u : Unit} :
    condition.checkCondition location t = .ok u t' ↔ condition.check t = .ok .int t' := by
  unfold checkCondition
  simp only [bind_eq_ok_iff, require_eq_ok_iff, beq_iff_eq]
  constructor
  · rintro ⟨_, _, hcheck, rfl, rfl⟩
    exact hcheck
  · intro hcheck
    exact ⟨_, _, hcheck, rfl, rfl⟩

mutual

/-- A check passes no statement but those that the rules pass. -/
theorem Stmt.check_sound : ∀ (s : Stmt) {t t' : Typing} {u : Unit}, t.Scoped declared →
    t.Fresh s.postorder → s.check t = .ok u t' →
    s.WellTyped declared ∧ Records declared s.postorder t t'
  | .read location name, t, t', u, hscoped, _, h => by
      simp only [Stmt.check, bind_eq_ok_iff, lookup_eq_ok_iff hscoped, pure_eq_ok_iff] at h
      obtain ⟨_, _, ⟨hdeclared, rfl⟩, _, rfl⟩ := h
      exact ⟨.read location hdeclared, .refl _⟩
  | .print location value, t, t', u, hscoped, hfresh, h => by
      simp only [Stmt.check, bind_eq_ok_iff, pure_eq_ok_iff] at h
      obtain ⟨_, _, hvalue, _, rfl⟩ := h
      obtain ⟨htype, hrecords⟩ := value.check_sound hscoped hfresh hvalue
      exact ⟨.print location htype, hrecords⟩
  | .assign location target value, t, t', u, hscoped, hfresh, h => by
      simp only [Stmt.check, bind_eq_ok_iff, require_eq_ok_iff] at h
      obtain ⟨_, m, hvalue, _, _, hlookup, htakes, rfl⟩ := h
      obtain ⟨htype, hrecords⟩ := value.check_sound hscoped hfresh hvalue
      obtain ⟨hdeclared, rfl⟩ := (lookup_eq_ok_iff (hrecords.keepsScope hscoped)).mp hlookup
      exact ⟨.assign location hdeclared htype (Ty.takes_iff.mp htakes), hrecords⟩
  | .branch location condition yes no, t, t', u, hscoped, hfresh, h => by
      simp only [Stmt.check, bind_eq_ok_iff, Expr.checkCondition_eq_ok_iff] at h
      obtain ⟨_, m, hcondition, _, m', hyes, hno⟩ := h
      rw [postorder, List.append_assoc] at hfresh
      obtain ⟨htype, hm⟩ := condition.check_sound hscoped hfresh.left hcondition
      have hscoped' := hm.keepsScope hscoped
      have hfresh' := hfresh.right hm
      obtain ⟨hyesTyped, hm'⟩ := checkAll_sound yes hscoped' hfresh'.left hyes
      obtain ⟨hnoTyped, hrecords⟩ :=
        checkAll_sound no (hm'.keepsScope hscoped') (hfresh'.right hm') hno
      exact ⟨.branch location htype hyesTyped hnoTyped, (hm.trans hm').trans hrecords⟩
  | .loop location condition body, t, t', u, hscoped, hfresh, h => by
      simp only [Stmt.check, bind_eq_ok_iff, Expr.checkCondition_eq_ok_iff] at h
      obtain ⟨_, m, hcondition, hbody⟩ := h
      obtain ⟨htype, hm⟩ := condition.check_sound hscoped hfresh.left hcondition
      obtain ⟨hbodyTyped, hrecords⟩ :=
        checkAll_sound body (hm.keepsScope hscoped) (hfresh.right hm) hbody
      exact ⟨.loop location htype hbodyTyped, hm.trans hrecords⟩

theorem Stmt.checkAll_sound : ∀ (statements : List Stmt) {t t' : Typing} {u : Unit},
    t.Scoped declared → t.Fresh (Stmt.postorderAll statements) →
    Stmt.checkAll statements t = .ok u t' →
    (∀ s ∈ statements, s.WellTyped declared) ∧
      Records declared (Stmt.postorderAll statements) t t'
  | [], t, t', u, _, _, h => by
      obtain ⟨_, rfl⟩ := pure_eq_ok_iff.mp h
      exact ⟨by simp, .refl _⟩
  | s :: rest, t, t', u, hscoped, hfresh, h => by
      rw [Stmt.checkAll, bind_eq_ok_iff] at h
      obtain ⟨_, m, hs, hrest⟩ := h
      obtain ⟨hsTyped, hm⟩ := check_sound s hscoped hfresh.left hs
      obtain ⟨hrestTyped, hrecords⟩ :=
        checkAll_sound rest (hm.keepsScope hscoped) (hfresh.right hm) hrest
      exact ⟨List.forall_mem_cons.mpr ⟨hsTyped, hrestTyped⟩, hm.trans hrecords⟩

end

theorem Expr.checkCondition_complete {condition : Expr} (location : Location)
    (htype : condition.HasType declared .int) {t : Typing} (hscoped : t.Scoped declared)
    (hfresh : t.Fresh condition.postorder) :
    ∃ m, condition.checkCondition location t = .ok () m ∧
      Records declared condition.postorder t m := by
  obtain ⟨m, hm⟩ := check_complete htype hscoped hfresh
  exact ⟨m, checkCondition_eq_ok_iff.mpr hm, (condition.check_sound hscoped hfresh hm).2⟩

mutual

/-- A check passes the statements that the rules pass. -/
theorem Stmt.check_complete : ∀ (s : Stmt) {t : Typing}, s.WellTyped declared →
    t.Scoped declared → t.Fresh s.postorder → ∃ t', s.check t = .ok () t'
  | .read location name, t, htyped, hscoped, _ => by
      cases htyped with
      | read _ hdeclared =>
          refine ⟨t, ?_⟩
          rw [Stmt.check, bind_eq_ok_iff]
          exact ⟨_, _, (lookup_eq_ok_iff hscoped).mpr ⟨hdeclared, rfl⟩, rfl⟩
  | .print location value, t, htyped, hscoped, hfresh => by
      cases htyped with
      | print _ htype =>
          obtain ⟨t', hvalue⟩ := Expr.check_complete htype hscoped hfresh
          refine ⟨t', ?_⟩
          rw [Stmt.check, bind_eq_ok_iff]
          exact ⟨_, _, hvalue, rfl⟩
  | .assign location target value, t, htyped, hscoped, hfresh => by
      cases htyped with
      | assign _ hdeclared htype hassignable =>
          obtain ⟨t', hvalue⟩ := Expr.check_complete htype hscoped hfresh
          have hscoped' := (value.check_sound hscoped hfresh hvalue).2.keepsScope hscoped
          refine ⟨t', ?_⟩
          simp only [Stmt.check, bind_eq_ok_iff]
          exact ⟨_, _, hvalue, _, _, (lookup_eq_ok_iff hscoped').mpr ⟨hdeclared, rfl⟩,
            require_eq_ok_iff.mpr ⟨Ty.takes_iff.mpr hassignable, rfl⟩⟩
  | .branch location condition yes no, t, htyped, hscoped, hfresh => by
      rw [postorder, List.append_assoc] at hfresh
      cases htyped with
      | branch _ htype hyes hno =>
          obtain ⟨m, hcondition, hm⟩ :=
            Expr.checkCondition_complete location htype hscoped hfresh.left
          have hscoped' := hm.keepsScope hscoped
          have hfresh' := hfresh.right hm
          obtain ⟨m', hyesCheck⟩ := checkAll_complete yes hyes hscoped' hfresh'.left
          have hm' := (checkAll_sound yes hscoped' hfresh'.left hyesCheck).2
          obtain ⟨t', hnoCheck⟩ :=
            checkAll_complete no hno (hm'.keepsScope hscoped') (hfresh'.right hm')
          refine ⟨t', ?_⟩
          simp only [Stmt.check, bind_eq_ok_iff]
          exact ⟨_, _, hcondition, _, _, hyesCheck, hnoCheck⟩
  | .loop location condition body, t, htyped, hscoped, hfresh => by
      cases htyped with
      | loop _ htype hbody =>
          obtain ⟨m, hcondition, hm⟩ :=
            Expr.checkCondition_complete location htype hscoped hfresh.left
          obtain ⟨t', hbodyCheck⟩ :=
            checkAll_complete body hbody (hm.keepsScope hscoped) (hfresh.right hm)
          refine ⟨t', ?_⟩
          rw [Stmt.check, bind_eq_ok_iff]
          exact ⟨_, _, hcondition, hbodyCheck⟩

theorem Stmt.checkAll_complete : ∀ (statements : List Stmt) {t : Typing},
    (∀ s ∈ statements, s.WellTyped declared) → t.Scoped declared →
    t.Fresh (Stmt.postorderAll statements) → ∃ t', Stmt.checkAll statements t = .ok () t'
  | [], t, _, _, _ => ⟨t, rfl⟩
  | s :: rest, t, htyped, hscoped, hfresh => by
      obtain ⟨hsTyped, hrestTyped⟩ := List.forall_mem_cons.mp htyped
      obtain ⟨m, hs⟩ := check_complete s hsTyped hscoped hfresh.left
      have hm := (check_sound s hscoped hfresh.left hs).2
      obtain ⟨t', hrest⟩ :=
        checkAll_complete rest hrestTyped (hm.keepsScope hscoped) (hfresh.right hm)
      exact ⟨t', bind_eq_ok_iff.mpr ⟨_, _, hs, hrest⟩⟩

end

namespace Typing

/-! ## Declarations -/

theorem Scoped.keys {t : Typing} (hscoped : t.Scoped declared) :
    t.scope.keys = declared.map Declaration.name := by
  rw [Table.keys, hscoped, List.map_map]
  rfl

theorem declare_eq_ok_iff {t t' : Typing} {d : Declaration} {u : Unit}
    (hscoped : t.Scoped declared) :
    declare d t = .ok u t' ↔
      d.name ∉ declared.map Declaration.name ∧
        t' = { t with scope := t.scope.insert d.name d } := by
  rw [← hscoped.keys, ← Table.get?_eq_none_iff]
  unfold declare
  simp only [bind_eq_ok_iff, get_eq_ok_iff]
  constructor
  · rintro ⟨_, _, ⟨hcurrent, hafter⟩, hmatch⟩
    rw [hcurrent, hafter] at hmatch
    cases hfound : t.scope.get? d.name with
    | none =>
        rw [hfound] at hmatch
        exact ⟨rfl, set_eq_ok_iff.mp hmatch⟩
    | some first =>
        rw [hfound] at hmatch
        cases hmatch
  · rintro ⟨hfound, rfl⟩
    refine ⟨_, _, ⟨rfl, rfl⟩, ?_⟩
    rw [hfound]
    rfl

theorem Scoped.declare {t : Typing} {d : Declaration} (hscoped : t.Scoped declared)
    (hnew : d.name ∉ declared.map Declaration.name) :
    Scoped { t with scope := t.scope.insert d.name d } (declared ++ [d]) := by
  rw [← hscoped.keys] at hnew
  unfold Scoped
  rw [Table.entries_insert_of_not_mem d hnew, hscoped, List.map_append]
  rfl

theorem nodup_names_concat {d : Declaration} (hnodup : (declared.map Declaration.name).Nodup) :
    ((declared ++ [d]).map Declaration.name).Nodup ↔ d.name ∉ declared.map Declaration.name := by
  rw [List.map_append, List.nodup_append]
  simp only [List.map_cons, List.map_nil, List.mem_singleton, hnodup, List.nodup_cons,
    List.not_mem_nil, not_false_iff, List.nodup_nil, and_self, true_and]
  grind

/-- Declarations that pass declare each name once, and are then on record in order. -/
theorem forM_declare_sound {declarations : List Declaration} {t t' : Typing} {u : Unit}
    (hscoped : t.Scoped declared) (hnodup : (declared.map Declaration.name).Nodup)
    (h : declarations.forM declare t = .ok u t') :
    ((declared ++ declarations).map Declaration.name).Nodup ∧
      t'.Scoped (declared ++ declarations) ∧ t'.types = t.types := by
  induction declarations generalizing declared t with
  | nil =>
      obtain ⟨_, rfl⟩ := pure_eq_ok_iff.mp h
      rw [List.append_nil]
      exact ⟨hnodup, hscoped, rfl⟩
  | cons d rest ih =>
      obtain ⟨_, _, hd, hrest⟩ := bind_eq_ok_iff.mp h
      obtain ⟨hnew, rfl⟩ := (declare_eq_ok_iff hscoped).mp hd
      have hrun := ih (hscoped.declare hnew) ((nodup_names_concat hnodup).mpr hnew) hrest
      rwa [List.append_assoc] at hrun

theorem forM_declare_complete {declarations : List Declaration} {t : Typing}
    (hscoped : t.Scoped declared)
    (hnodup : ((declared ++ declarations).map Declaration.name).Nodup) :
    ∃ t', declarations.forM declare t = .ok () t' := by
  induction declarations generalizing declared t with
  | nil => exact ⟨t, rfl⟩
  | cons d rest ih =>
      rw [← List.singleton_append, ← List.append_assoc] at hnodup
      have hfront := hnodup
      rw [List.map_append] at hfront
      have hboth := (List.nodup_append.mp hfront).1
      have hold : (declared.map Declaration.name).Nodup := by
        rw [List.map_append] at hboth
        exact (List.nodup_append.mp hboth).1
      have hnew := (nodup_names_concat hold).mp hboth
      obtain ⟨t', hrest⟩ := ih (hscoped.declare hnew) hnodup
      exact ⟨t', bind_eq_ok_iff.mpr
        ⟨(), _, (declare_eq_ok_iff hscoped).mpr ⟨hnew, rfl⟩, hrest⟩⟩

theorem scoped_empty : empty.Scoped [] := rfl

/-! ## Programs -/

theorem fresh_of_nodup {t : Typing} {p : Program} (hnodup : (p.postorder.map Expr.id).Nodup)
    (ht : t.types = empty.types) : t.Fresh p.postorder := by
  unfold Fresh
  rw [ht]
  exact hnodup

/-- A program that passes with some variables on record, and no types, is well typed over them
and its own ones. They are all on record then, and so are its expressions. -/
theorem check_sound_over {t t' : Typing} {p : Program} {u : Unit} (hscoped : t.Scoped declared)
    (hnodup : (declared.map Declaration.name).Nodup) (htypes : t.types = .empty)
    (hids : (p.postorder.map Expr.id).Nodup) (h : p.check t = .ok u t') :
    ((declared ++ p.declarations).map Declaration.name).Nodup ∧
      (∀ s ∈ p.statements, s.WellTyped (declared ++ p.declarations)) ∧
      t'.Scoped (declared ++ p.declarations) ∧ t'.types.keys = p.postorder.map Expr.id ∧
      ∀ e ∈ p.postorder, ∃ type, t'.types.get? e.id = some type ∧
        e.HasType (declared ++ p.declarations) type := by
  rw [Program.check, bind_eq_ok_iff] at h
  obtain ⟨_, m, hdeclarations, hstatements⟩ := h
  obtain ⟨hnames, hscoped', htypes'⟩ := forM_declare_sound hscoped hnodup hdeclarations
  rw [htypes] at htypes'
  obtain ⟨hwellTyped, hrecords⟩ :=
    Stmt.checkAll_sound p.statements hscoped' (fresh_of_nodup hids htypes') hstatements
  have hkeys := hrecords.keys
  obtain ⟨entries, hentries, -, htyped⟩ := hrecords.added
  rw [htypes'] at hkeys hentries
  refine ⟨hnames, hwellTyped, hrecords.keepsScope hscoped', hkeys, fun e he => ?_⟩
  obtain ⟨type, hmem, htype⟩ := htyped e he
  refine ⟨type, Table.get?_eq_some_iff.mpr ?_, htype⟩
  rw [hentries]
  exact hmem

/-- A program that passes is well typed. Its variables and its expressions are on record
then. -/
theorem check_sound {p : Program} (hnodup : (p.postorder.map Expr.id).Nodup) {t : Typing}
    {u : Unit} (h : p.check empty = .ok u t) :
    p.WellTyped ∧ t.Scoped p.declarations ∧
      t.types.keys = p.postorder.map Expr.id ∧
      ∀ e ∈ p.postorder, ∃ type, t.types.get? e.id = some type ∧
        e.HasType p.declarations type := by
  obtain ⟨hnames, hwellTyped, hrest⟩ := check_sound_over scoped_empty List.nodup_nil rfl hnodup h
  exact ⟨⟨hnames, hwellTyped⟩, hrest⟩

/-- A program that is well typed passes. -/
theorem check_complete {p : Program} (hnodup : (p.postorder.map Expr.id).Nodup)
    (hwellTyped : p.WellTyped) : ∃ t, p.check empty = .ok () t := by
  obtain ⟨m, hdeclarations⟩ := forM_declare_complete scoped_empty hwellTyped.names
  obtain ⟨-, hscoped, htypes⟩ := forM_declare_sound scoped_empty List.nodup_nil hdeclarations
  obtain ⟨t, hstatements⟩ := Stmt.checkAll_complete p.statements hwellTyped.statements hscoped
    (fresh_of_nodup hnodup htypes)
  exact ⟨t, bind_eq_ok_iff.mpr ⟨_, _, hdeclarations, hstatements⟩⟩

theorem extend_eq_iff {t t' : Typing} {p : Program} :
    t.extend p = (none, t') ↔ p.check t = .ok () t' := by
  unfold extend
  cases p.check t with
  | ok u after => simp
  | error => simp

theorem Scoped.symbols_entries {t : Typing} (h : t.Scoped declared) :
    t.symbols.entries = declared.map fun d => (d.name, d.type) := by
  show t.scope.entries.map (fun e => (e.1, e.2.type)) = _
  rw [h, List.map_map]
  rfl

end Typing

end ImpToC
