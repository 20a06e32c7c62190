import ImpToC.Proofs.Typing.Records

/-!
# What a stopped check leaves on record

Wherever a check stops, it has put the types of the expressions on record that it has gone
through by then, one after the other from the first one on, and they are those that the rules
give.
-/

namespace ImpToC

namespace Typing

/-- A part of the check goes through some expressions: all of them are put on record, and there
is a result of some kind, or those up to a place where there is a fault. -/
def GoesThrough {α : Type} (declared : List Declaration) (es : List Expr) (result : α → Prop)
    (x : Check α) : Prop :=
  ∀ t, t.Scoped declared → t.Fresh es →
    match x t with
    | .ok a t' => result a ∧ Records declared es t t'
    | .error _ t' => ∃ front, front <+: es ∧ Records declared front t t'

variable {declared : List Declaration} {es es' : List Expr} {α β : Type} {result : α → Prop}
  {result' : β → Prop}

namespace GoesThrough

theorem ret {a : α} (h : result a) : GoesThrough declared [] result (pure a) :=
  fun t _ _ => ⟨h, .refl t⟩

theorem raise {f : Fault} : GoesThrough declared es result (throw f) :=
  fun t _ _ => ⟨[], List.nil_prefix, .refl t⟩

theorem read : GoesThrough declared [] (·.Scoped declared) get :=
  fun t hscoped _ => ⟨hscoped, .refl t⟩

theorem bind {x : Check α} {next : α → Check β} (h : GoesThrough declared es result x)
    (hnext : ∀ a, result a → GoesThrough declared es' result' (next a)) :
    GoesThrough declared (es ++ es') result' (x >>= next) := by
  intro t hscoped hfresh
  have hx := h t hscoped hfresh.left
  cases hrun : x t with
  | error f m =>
      rw [hrun] at hx
      rw [bind_of_error hrun]
      obtain ⟨front, hfront, hrecords⟩ := hx
      exact ⟨front, hfront.trans (List.prefix_append es es'), hrecords⟩
  | ok a m =>
      rw [hrun] at hx
      rw [bind_of_ok hrun]
      obtain ⟨ha, hm⟩ := hx
      have hrest := hnext a ha m (hm.keepsScope hscoped) (hfresh.right hm)
      cases hafter : next a m with
      | ok b t' =>
          rw [hafter] at hrest
          exact ⟨hrest.1, hm.trans hrest.2⟩
      | error f t' =>
          rw [hafter] at hrest
          obtain ⟨front, hfront, hrecords⟩ := hrest
          exact ⟨es ++ front, (List.prefix_append_right_inj es).mpr hfront, hm.trans hrecords⟩

/-- A part of the check that comes behind another one and records nothing. -/
theorem thenQuiet {x : Check α} {next : α → Check β} (h : GoesThrough declared es result x)
    (hnext : ∀ a, result a → GoesThrough declared [] result' (next a)) :
    GoesThrough declared es result' (x >>= next) := by
  have hbind := h.bind hnext
  rwa [List.append_nil] at hbind

theorem weaken {x : Check α} {result' : α → Prop} (h : GoesThrough declared es result x)
    (hresult : ∀ a, result a → result' a) : GoesThrough declared es result' x := by
  intro t hscoped hfresh
  have hx := h t hscoped hfresh
  cases hrun : x t with
  | ok a t' =>
      rw [hrun] at hx
      exact ⟨hresult a hx.1, hx.2⟩
  | error f t' =>
      rw [hrun] at hx
      exact hx

end GoesThrough

theorem lookup_goesThrough (name : String) (l : Location) :
    GoesThrough declared [] (Declared declared name) (lookup name l) := by
  refine GoesThrough.read.bind fun t hscoped => ?_
  cases hd : t.scope.get? name with
  | some d =>
      obtain ⟨hmem, hname⟩ := hscoped.get?_eq_some_iff.mp hd
      exact .ret ⟨d, hmem, hname, rfl⟩
  | none => exact .raise

theorem record_goesThrough {e : Expr} {type : Ty} (h : e.HasType declared type) :
    GoesThrough declared [e] (e.HasType declared) (record e.id type) := by
  intro t _ hfresh
  exact ⟨h, (records_of_record hfresh h rfl).2⟩

theorem require_goesThrough (accepted : Bool) (expected actual : Ty) (l : Location) :
    GoesThrough declared [] (fun _ => accepted = true) (require accepted expected actual l) := by
  cases accepted with
  | true => exact .ret rfl
  | false => exact .raise

end Typing

open Typing

variable {declared : List Declaration}

theorem Expr.check_goesThrough (e : Expr) :
    GoesThrough declared e.postorder (e.HasType declared) e.check := by
  induction e with
  | name m x =>
      exact (lookup_goesThrough x m.location).bind fun type htype =>
        record_goesThrough (.name m htype)
  | int m value => exact record_goesThrough (.int m value)
  | float m value => exact record_goesThrough (.float m value)
  | string m text => exact record_goesThrough (.string m text)
  | negate m operand ih =>
      exact ih.bind fun type htype => record_goesThrough (.negate m htype)
  | binary m op left right ihleft ihright =>
      rw [postorder, List.append_assoc]
      refine ihleft.bind fun leftType hleft => ihright.bind fun rightType hright => ?_
      cases hresult : op.result? leftType rightType with
      | some type =>
          exact record_goesThrough
            (.binary m hleft hright (BinOp.result?_eq_some_iff.mp hresult))
      | none => exact .raise

theorem Expr.checkCondition_goesThrough (condition : Expr) (l : Location) :
    GoesThrough declared condition.postorder (fun _ => condition.HasType declared .int)
      (condition.checkCondition l) := by
  refine condition.check_goesThrough.thenQuiet fun type htype => ?_
  refine (require_goesThrough _ _ _ l).weaken fun _ hint => ?_
  rwa [beq_iff_eq.mp hint] at htype

mutual

theorem Stmt.check_goesThrough : ∀ s : Stmt,
    GoesThrough declared s.postorder (fun _ => s.WellTyped declared) s.check
  | .read l name =>
      (lookup_goesThrough name l).thenQuiet fun _ hname => .ret (.read l hname)
  | .print l value =>
      value.check_goesThrough.thenQuiet fun _ htype => .ret (.print l htype)
  | .assign l target value =>
      value.check_goesThrough.thenQuiet fun _ hvalue =>
        (lookup_goesThrough target l).thenQuiet fun _ htarget =>
          (require_goesThrough _ _ _ l).weaken fun _ htakes =>
            .assign l htarget hvalue (Ty.takes_iff.mp htakes)
  | .branch l condition yes no => by
      rw [postorder, List.append_assoc]
      exact (condition.checkCondition_goesThrough l).bind fun _ hcondition =>
        (Stmt.checkAll_goesThrough yes).bind fun _ hyes =>
          (Stmt.checkAll_goesThrough no).weaken fun _ hno => .branch l hcondition hyes hno
  | .loop l condition body =>
      (condition.checkCondition_goesThrough l).bind fun _ hcondition =>
        (Stmt.checkAll_goesThrough body).weaken fun _ hbody => .loop l hcondition hbody

theorem Stmt.checkAll_goesThrough : ∀ statements : List Stmt,
    GoesThrough declared (Stmt.postorderAll statements)
      (fun _ => ∀ s ∈ statements, s.WellTyped declared) (Stmt.checkAll statements)
  | [] => .ret nofun
  | s :: rest =>
      (Stmt.check_goesThrough s).bind fun _ hs =>
        (Stmt.checkAll_goesThrough rest).weaken fun _ hrest =>
          List.forall_mem_cons.mpr ⟨hs, hrest⟩

end

namespace Typing

variable {t t' : Typing}

/-! ## Programs -/

theorem eq_of_declare_error {d : Declaration} {f : Fault} (h : declare d t = .error f t') :
    t' = t := by
  have hget : (get : Check Typing) t = .ok t t := rfl
  unfold declare at h
  rw [bind_of_ok hget] at h
  cases hfirst : t.scope.get? d.name with
  | some first =>
      rw [hfirst] at h
      cases h
      rfl
  | none =>
      rw [hfirst] at h
      cases h

/-- Declarations that stop have put those in front of the fault on record, each name once. -/
theorem forM_declare_partial {declarations : List Declaration} {f : Fault}
    (hscoped : t.Scoped declared) (hnodup : (declared.map Declaration.name).Nodup)
    (h : declarations.forM declare t = .error f t') :
    ∃ new, new <+: declarations ∧ ((declared ++ new).map Declaration.name).Nodup ∧
      t'.Scoped (declared ++ new) ∧ t'.types = t.types := by
  induction declarations generalizing declared t with
  | nil => cases h
  | cons d rest ih =>
      rcases bind_eq_error_iff.mp h with hd | ⟨_, m, hd, hrest⟩
      · obtain rfl := eq_of_declare_error hd
        refine ⟨[], List.nil_prefix, ?_⟩
        rw [List.append_nil]
        exact ⟨hnodup, hscoped, rfl⟩
      · obtain ⟨hnew, rfl⟩ := (declare_eq_ok_iff hscoped).mp hd
        obtain ⟨new, hprefix, hrun⟩ :=
          ih (hscoped.declare hnew) ((nodup_names_concat hnodup).mpr hnew) hrest
        rw [List.append_assoc] at hrun
        exact ⟨d :: new, List.cons_prefix_cons.mpr ⟨rfl, hprefix⟩, hrun⟩

/-- What has been put on an empty record is all of it. -/
theorem Records.of_empty {es : List Expr} (h : Records declared es t t')
    (htypes : t.types = .empty) :
    t'.types.keys = es.map Expr.id ∧
      ∀ e ∈ es, ∃ type, t'.types.get? e.id = some type ∧ e.HasType declared type := by
  have hkeys := h.keys
  obtain ⟨entries, hentries, -, htyped⟩ := h.added
  rw [htypes] at hkeys hentries
  refine ⟨hkeys, fun e he => ?_⟩
  obtain ⟨type, hmem, htype⟩ := htyped e he
  exact ⟨type, Table.get?_eq_some_iff.mpr (hentries ▸ hmem), htype⟩

/-- What a check leaves that starts with some variables and with no types on record: some of the
declarations, from the first one on, and the types of some of the expressions, as the rules
give them over all variables there are then. -/
structure Leaves (declared : List Declaration) (p : Program) (new : List Declaration)
    (es : List Expr) (t : Typing) : Prop where
  declarations : new <+: p.declarations
  names : ((declared ++ new).map Declaration.name).Nodup
  scope : t.Scoped (declared ++ new)
  expressions : es <+: p.postorder
  keys : t.types.keys = es.map Expr.id
  typed : ∀ e ∈ es, ∃ type, t.types.get? e.id = some type ∧ e.HasType (declared ++ new) type

/-- A check passes just the programs that are well typed over the variables there are, and what
it leaves is of that kind, whether it passes or not. -/
theorem exists_leaves {p : Program} (hscoped : t.Scoped declared)
    (hnodup : (declared.map Declaration.name).Nodup) (htypes : t.types = .empty)
    (hids : (p.postorder.map Expr.id).Nodup) :
    (∃ new es, Leaves declared p new es (t.extend p).2) ∧
      ((t.extend p).1 = none ↔
        ((declared ++ p.declarations).map Declaration.name).Nodup ∧
          ∀ s ∈ p.statements, s.WellTyped (declared ++ p.declarations)) := by
  unfold extend Program.check
  cases hdeclarations : p.declarations.forM declare t with
  | error f t' =>
      rw [bind_of_error hdeclarations]
      obtain ⟨new, hnew, hnames, hscoped', htypes'⟩ :=
        forM_declare_partial hscoped hnodup hdeclarations
      rw [htypes] at htypes'
      refine ⟨⟨new, [], hnew, hnames, hscoped', List.nil_prefix, ?_, nofun⟩, nofun, ?_⟩
      · rw [htypes']
        rfl
      · rintro ⟨hall, -⟩
        obtain ⟨m, hm⟩ := forM_declare_complete hscoped hall
        cases hm.symm.trans hdeclarations
  | ok _ m =>
      rw [bind_of_ok hdeclarations]
      obtain ⟨hnames, hscoped', htypes'⟩ := forM_declare_sound hscoped hnodup hdeclarations
      rw [htypes] at htypes'
      have hfresh : m.Fresh (Stmt.postorderAll p.statements) := fresh_of_nodup hids htypes'
      have hstatements := Stmt.checkAll_goesThrough p.statements m hscoped' hfresh
      cases hcheck : Stmt.checkAll p.statements m with
      | ok _ t' =>
          rw [hcheck] at hstatements
          obtain ⟨hwellTyped, hrecords⟩ := hstatements
          obtain ⟨hkeys, htyped⟩ := hrecords.of_empty htypes'
          exact ⟨⟨_, _, List.prefix_rfl, hnames, hrecords.keepsScope hscoped', List.prefix_rfl,
            hkeys, htyped⟩, fun _ => ⟨hnames, hwellTyped⟩, fun _ => rfl⟩
      | error f t' =>
          rw [hcheck] at hstatements
          obtain ⟨es, hes, hrecords⟩ := hstatements
          obtain ⟨hkeys, htyped⟩ := hrecords.of_empty htypes'
          refine ⟨⟨_, es, List.prefix_rfl, hnames, hrecords.keepsScope hscoped', hes, hkeys,
            htyped⟩, nofun, ?_⟩
          rintro ⟨-, hwellTyped⟩
          obtain ⟨t'', hok⟩ := Stmt.checkAll_complete p.statements hwellTyped hscoped' hfresh
          cases hok.symm.trans hcheck

end Typing

end ImpToC
