import ImpToC.Proofs.Effects
import ImpToC.Proofs.Semantics.Source

/-!
# Bounds on rounds

A run that comes to an end with some bound on the rounds of its loops comes to the same
end with every larger one, and a run that is out of rounds only goes on. So the runs of
a program with its bounds have one limit.
-/

namespace ImpToC

variable {V T α β : Type}

/-- The world that a part of a run ends in. -/
def worldOf : EStateM.Result (Halt T) (World V) α → World V
  | .ok _ w | .error _ w => w

/-- A part of a run that takes back nothing of what has been seen. -/
def Adds (r : Run V T α) : Prop := ∀ w, w.events <+: (worldOf (r w)).events

/-- The second result is the first one, or it is further where the first one is out of
rounds. -/
inductive Further : EStateM.Result (Halt T) (World V) α →
    EStateM.Result (Halt T) (World V) α → Prop
  | same (r : EStateM.Result (Halt T) (World V) α) : Further r r
  | more {w : World V} {r : EStateM.Result (Halt T) (World V) α} :
      w.events <+: (worldOf r).events → Further (.error .outOfRounds w) r

/-- The second part of a run gets further than the first one. -/
def Prolongs (r r' : Run V T α) : Prop := ∀ w, Further (r w) (r' w)

namespace Adds

theorem pure (a : α) : Adds (Pure.pure a : Run V T α) := fun w => List.prefix_refl w.events

theorem throw (halt : Halt T) : Adds (throw halt : Run V T α) := fun w => List.prefix_refl w.events

theorem ofStore (f : (String → V) → Except (Halt T) α) : Adds (Run.ofStore f) := by
  intro w
  unfold Run.ofStore
  cases f w.store <;> exact List.prefix_refl w.events

theorem bind {r : Run V T α} {f : α → Run V T β} (hr : Adds r) (hf : ∀ a, Adds (f a)) :
    Adds (r >>= f) := by
  intro w
  have hfirst := hr w
  cases h : r w with
  | ok a m =>
      rw [h] at hfirst
      rw [bind_of_ok h]
      exact hfirst.trans (hf a m)
  | error halt m =>
      rw [h] at hfirst
      rw [bind_of_error h]
      exact hfirst

theorem iterate {round : Run V T Bool} (h : Adds round) (bound : Nat) :
    Adds (round.iterate bound) := by
  induction bound with
  | zero => exact .throw .outOfRounds
  | succ bound ih =>
      refine h.bind fun again => ?_
      cases again with
      | true => exact ih
      | false => exact .pure ()

end Adds

namespace Prolongs

theorem refl (r : Run V T α) : Prolongs r r := fun w => .same (r w)

theorem bind {r r' : Run V T α} {f f' : α → Run V T β} (hr : Prolongs r r')
    (hf : ∀ a, Prolongs (f a) (f' a)) (hadds : ∀ a, Adds (f' a)) :
    Prolongs (r >>= f) (r' >>= f') := by
  intro w
  have hfirst := hr w
  cases h : r w with
  | ok a m =>
      rw [h] at hfirst
      -- A first part that comes to its end is not out of rounds, so the other is the same.
      have h' : r' w = .ok a m := by
        generalize r' w = result at hfirst
        cases hfirst
        rfl
      rw [bind_of_ok h, bind_of_ok h']
      exact hf a m
  | error halt m =>
      rw [h] at hfirst
      rw [bind_of_error h]
      cases h' : r' w with
      | ok a m' =>
          rw [h'] at hfirst
          rw [bind_of_ok h']
          cases hfirst with
          | more hmore => exact .more (hmore.trans (hadds a m'))
      | error halt' m' =>
          rw [h'] at hfirst
          rw [bind_of_error h']
          cases hfirst with
          | same => exact .same _
          | more hmore => exact .more hmore

theorem iterate {round round' : Run V T Bool} (h : Prolongs round round') (hadds : Adds round')
    {bound bound' : Nat} (hbound : bound ≤ bound') :
    Prolongs (round.iterate bound) (round'.iterate bound') := by
  induction bound generalizing bound' with
  | zero => exact fun w => .more (hadds.iterate bound' w)
  | succ bound ih =>
      obtain ⟨bound', rfl⟩ : ∃ n, bound' = n + 1 := ⟨bound' - 1, by omega⟩
      refine h.bind (fun again => ?_) fun again => ?_
      · cases again with
        | true => exact ih (by omega)
        | false => exact .refl _
      · cases again with
        | true => exact hadds.iterate bound'
        | false => exact .pure ()

end Prolongs

/-! ## Statements -/

variable (I : Interpretation V T) (symbols : List (String × Ty))

theorem adds_emit (d : Datum V) : Adds (emit d : Run V T Unit) :=
  fun w => List.prefix_append w.events _

theorem adds_read (name : String) (type : Ty) : Adds (I.read name type) := by
  intro w
  unfold Interpretation.read
  cases I.input w.reads type with
  | ok value => exact List.prefix_append w.events _
  | error cause => exact List.prefix_refl w.events

theorem adds_assign (name : String) (d : Datum V) : Adds (I.assign symbols name d) :=
  (Adds.ofStore _).bind fun _ w => List.prefix_refl w.events

theorem adds_branch (condition : Expr) {yes no : Run V T α} (hyes : Adds yes) (hno : Adds no) :
    Adds (condition.holds I symbols >>= fun b => if b then yes else no) := by
  refine ((Adds.ofStore _).bind fun _ => .pure _).bind fun b => ?_
  cases b with
  | true => exact hyes
  | false => exact hno

theorem prolongs_branch (condition : Expr) {yes yes' no no' : Run V T α}
    (hyes : Prolongs yes yes') (hno : Prolongs no no') (haddsYes : Adds yes')
    (haddsNo : Adds no') :
    Prolongs (condition.holds I symbols >>= fun b => if b then yes else no)
      (condition.holds I symbols >>= fun b => if b then yes' else no') := by
  refine (Prolongs.refl _).bind (fun b => ?_) fun b => ?_
  · cases b with
    | true => exact hyes
    | false => exact hno
  · cases b with
    | true => exact haddsYes
    | false => exact haddsNo

mutual

theorem Stmt.adds_run (bound : Nat) : ∀ s : Stmt, Adds (s.run I symbols bound)
  | .read .. => by
      rw [Stmt.run]
      exact (Adds.ofStore _).bind fun target => adds_read I _ target.type
  | .print .. => by
      rw [Stmt.run]
      exact (Adds.ofStore _).bind adds_emit
  | .assign _ target value => by
      rw [Stmt.run]
      exact (Adds.ofStore _).bind (adds_assign I symbols target)
  | .branch _ condition yes no => by
      rw [Stmt.run]
      exact adds_branch I symbols condition (adds_runAll bound yes) (adds_runAll bound no)
  | .loop _ condition body => by
      rw [Stmt.run]
      have hagain := (adds_runAll bound body).bind fun _ => .pure true
      exact .iterate (adds_branch I symbols condition hagain (.pure false)) bound

theorem Stmt.adds_runAll (bound : Nat) :
    ∀ statements : List Stmt, Adds (Stmt.runAll I symbols bound statements)
  | [] => by
      rw [Stmt.runAll]
      exact .pure ()
  | s :: rest => by
      rw [Stmt.runAll]
      exact (adds_run bound s).bind fun _ => adds_runAll bound rest

end

mutual

theorem Stmt.prolongs_run {bound bound' : Nat} (h : bound ≤ bound') :
    ∀ s : Stmt, Prolongs (s.run I symbols bound) (s.run I symbols bound')
  | .read .. => by
      rw [Stmt.run, Stmt.run]
      exact .refl _
  | .print .. => by
      rw [Stmt.run, Stmt.run]
      exact .refl _
  | .assign .. => by
      rw [Stmt.run, Stmt.run]
      exact .refl _
  | .branch _ condition yes no => by
      rw [Stmt.run, Stmt.run]
      exact prolongs_branch I symbols condition (prolongs_runAll h yes) (prolongs_runAll h no)
        (adds_runAll I symbols bound' yes) (adds_runAll I symbols bound' no)
  | .loop _ condition body => by
      rw [Stmt.run, Stmt.run]
      have hagain := (adds_runAll I symbols bound' body).bind fun _ => .pure true
      have hbody := (prolongs_runAll h body).bind (fun _ => .refl (pure true)) fun _ => .pure true
      exact .iterate (prolongs_branch I symbols condition hbody (.refl _) hagain (.pure false))
        (adds_branch I symbols condition hagain (.pure false)) h

theorem Stmt.prolongs_runAll {bound bound' : Nat} (h : bound ≤ bound') :
    ∀ statements : List Stmt,
      Prolongs (Stmt.runAll I symbols bound statements)
        (Stmt.runAll I symbols bound' statements)
  | [] => by
      rw [Stmt.runAll, Stmt.runAll]
      exact .refl _
  | s :: rest => by
      rw [Stmt.runAll, Stmt.runAll]
      exact (prolongs_run h s).bind (fun _ => prolongs_runAll h rest) fun _ =>
        adds_runAll I symbols bound' rest

end

/-- With a larger bound, a run of a program is the same or gets further. -/
theorem Program.run_further (p : Program) {bound bound' : Nat} (h : bound ≤ bound') :
    Further (p.run I bound) (p.run I bound') :=
  Stmt.prolongs_runAll I p.symbols h p.statements _

end ImpToC
