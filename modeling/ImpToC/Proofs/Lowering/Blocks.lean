import ImpToC.Proofs.Effects
import ImpToC.Proofs.Semantics.Code
import ImpToC.Proofs.Semantics.Safety

/-!
# Code that does what a program does

When some code does the same as a part of a run, wherever it stands, and how such code
is put together: in a row, in branches and in loops.
-/

namespace ImpToC.C

variable {V T : Type} (I : Interpretation V T) (symbols : List (String × Ty)) (bound : Nat)

/-! ## Code in a row -/

variable {I symbols bound}
  {temporaries temporaries' : Temporaries V} {w w' : World V} {halt : Halt T}

theorem runAll_cons_of_ok {i : Instr} {rest : List Instr}
    (h : Instr.run I symbols bound temporaries i w = .ok (some temporaries') w') :
    Instr.runAll I symbols bound temporaries (i :: rest) w =
      Instr.runAll I symbols bound temporaries' rest w' := by
  rw [Instr.runAll, bind_of_ok h]

theorem runAll_cons_of_none {i : Instr} {rest : List Instr}
    (h : Instr.run I symbols bound temporaries i w = .ok none w') :
    Instr.runAll I symbols bound temporaries (i :: rest) w = .ok none w' := by
  rw [Instr.runAll, bind_of_ok h]
  rfl

theorem runAll_cons_of_error {i : Instr} {rest : List Instr}
    (h : Instr.run I symbols bound temporaries i w = .error halt w') :
    Instr.runAll I symbols bound temporaries (i :: rest) w = .error halt w' := by
  rw [Instr.runAll, bind_of_error h]

theorem runAll_append_of_ok {first second : List Instr}
    (h : Instr.runAll I symbols bound temporaries first w = .ok (some temporaries') w') :
    Instr.runAll I symbols bound temporaries (first ++ second) w =
      Instr.runAll I symbols bound temporaries' second w' := by
  induction first generalizing temporaries w with
  | nil =>
      rw [Instr.runAll, pure_eq_ok_iff] at h
      obtain ⟨h, rfl⟩ := h
      cases h
      rfl
  | cons i rest ih =>
      rw [Instr.runAll, bind_eq_ok_iff] at h
      obtain ⟨_ | next, m, hi, hrest⟩ := h
      · cases hrest
      · rw [List.cons_append, runAll_cons_of_ok hi]
        exact ih hrest

theorem runAll_append_of_error {first second : List Instr}
    (h : Instr.runAll I symbols bound temporaries first w = .error halt w') :
    Instr.runAll I symbols bound temporaries (first ++ second) w = .error halt w' := by
  induction first generalizing temporaries w with
  | nil =>
      rw [Instr.runAll] at h
      cases h
  | cons i rest ih =>
      rw [Instr.runAll, bind_eq_error_iff] at h
      rcases h with hi | ⟨_ | next, m, hi, hrest⟩
      · exact runAll_cons_of_error hi
      · cases hrest
      · rw [List.cons_append, runAll_cons_of_ok hi]
        exact ih hrest

/-! ## Expressions -/

variable (I symbols bound)

/-- Some code computes a value into a place. It leaves all as it is but for temporaries
numbered higher than `kept`. -/
structure Computes (kept : Nat) (code : List Instr) (place : Place)
    (value : (String → V) → Except (Halt T) (Datum V)) : Prop where
  ok : ∀ (temporaries : Temporaries V) {w : World V} {d : Datum V}, value w.store = .ok d →
    ∃ temporaries',
      Instr.runAll I symbols bound temporaries code w = .ok (some temporaries') w ∧
      place.eval (T := T) symbols temporaries' w.store = .ok d ∧
      ∀ index ≤ kept, temporaries'.lookup index = temporaries.lookup index
  error : ∀ (temporaries : Temporaries V) {w : World V} {halt : Halt T},
    value w.store = .error halt →
    Instr.runAll I symbols bound temporaries code w = .error halt w

/-! ## Statements -/

/-- Some code does the same as a part of a run, wherever it stands. -/
structure Simulates (code : List Instr) (r : Run V T Unit) : Prop where
  ok : ∀ (temporaries : Temporaries V) {w w' : World V}, r w = .ok () w' →
    ∃ temporaries', Instr.runAll I symbols bound temporaries code w = .ok (some temporaries') w'
  error : ∀ (temporaries : Temporaries V) {w w' : World V} {halt : Halt T},
    r w = .error halt w' → Instr.runAll I symbols bound temporaries code w = .error halt w'

variable {I symbols bound}

namespace Simulates

theorem nil : Simulates I symbols bound [] (pure ()) where
  ok := by
    intro temporaries w w' h
    cases h
    exact ⟨temporaries, by rw [Instr.runAll]; rfl⟩
  error := nofun

theorem append {first second : List Instr} {r r' : Run V T Unit}
    (h : Simulates I symbols bound first r) (h' : Simulates I symbols bound second r') :
    Simulates I symbols bound (first ++ second) (r >>= fun _ => r') where
  ok := by
    intro temporaries w w' hrun
    obtain ⟨⟨⟩, m, hfirst, hsecond⟩ := bind_eq_ok_iff.mp hrun
    obtain ⟨temporaries', hfirst⟩ := h.ok temporaries hfirst
    rw [runAll_append_of_ok hfirst]
    exact h'.ok temporaries' hsecond
  error := by
    intro temporaries w w' halt hrun
    rcases bind_eq_error_iff.mp hrun with hfirst | ⟨⟨⟩, m, hfirst, hsecond⟩
    · exact runAll_append_of_error (h.error temporaries hfirst)
    · obtain ⟨temporaries', hfirst⟩ := h.ok temporaries hfirst
      rw [runAll_append_of_ok hfirst]
      exact h'.error temporaries' hsecond

end Simulates

/-! ## A value and what is done with it -/

theorem ofStore_eq_error_iff {α : Type} {f : (String → V) → Except (Halt T) α} :
    Run.ofStore f w = .error halt w' ↔ f w.store = .error halt ∧ w' = w := by
  unfold Run.ofStore
  cases f w.store with
  | ok a => simp
  | error => simp [eq_comm]

/-- A statement that uses the place of a value, behind the code for the value. -/
theorem Computes.simulates {kept : Nat} {code : List Instr} {place : Place}
    {value : (String → V) → Except (Halt T) (Datum V)} {i : Instr} {f : Datum V → Run V T Unit}
    (h : Computes I symbols bound kept code place value)
    (hok : ∀ {temporaries : Temporaries V} {w w' : World V} {d : Datum V},
      value w.store = .ok d → place.eval (T := T) symbols temporaries w.store = .ok d →
      f d w = .ok () w' →
      ∃ temporaries', Instr.run I symbols bound temporaries i w = .ok (some temporaries') w')
    (herror : ∀ {temporaries : Temporaries V} {w w' : World V} {d : Datum V} {halt : Halt T},
      value w.store = .ok d → place.eval (T := T) symbols temporaries w.store = .ok d →
      f d w = .error halt w' → Instr.run I symbols bound temporaries i w = .error halt w') :
    Simulates I symbols bound (code ++ [i]) (Run.ofStore value >>= f) where
  ok := by
    intro temporaries w w' hrun
    obtain ⟨d, _, hvalue, huse⟩ := bind_eq_ok_iff.mp hrun
    obtain ⟨hd, rfl⟩ := ofStore_eq_ok_iff.mp hvalue
    obtain ⟨temporaries', hcode, hplace, -⟩ := h.ok temporaries hd
    obtain ⟨temporaries'', hi⟩ := hok hd hplace huse
    refine ⟨temporaries'', ?_⟩
    rw [runAll_append_of_ok hcode, runAll_cons_of_ok hi, Instr.runAll]
    rfl
  error := by
    intro temporaries w w' halt hrun
    rcases bind_eq_error_iff.mp hrun with hvalue | ⟨d, _, hvalue, huse⟩
    · obtain ⟨hhalt, rfl⟩ := ofStore_eq_error_iff.mp hvalue
      exact runAll_append_of_error (h.error temporaries hhalt)
    · obtain ⟨hd, rfl⟩ := ofStore_eq_ok_iff.mp hvalue
      obtain ⟨temporaries', hcode, hplace, -⟩ := h.ok temporaries hd
      rw [runAll_append_of_ok hcode, runAll_cons_of_error (herror hd hplace huse)]

/-- The operand of an instruction is at its place. -/
theorem ofStore_place {place : Place} {d : Datum V}
    (h : place.eval (T := T) symbols temporaries w.store = .ok d) :
    (Run.ofStore fun store => place.eval symbols temporaries store : Run V T (Datum V)) w =
      .ok d w :=
  ofStore_eq_ok_iff.mpr ⟨h, rfl⟩

namespace Computes

variable {kept : Nat} {code : List Instr} {place : Place}
  {value : (String → V) → Except (Halt T) (Datum V)}

theorem print (h : Computes I symbols bound kept code place value) {type : Ty}
    (htype : ∀ {store d}, value store = .ok d → d.type = type) :
    Simulates I symbols bound (code ++ [.print type place]) (Run.ofStore value >>= emit) := by
  refine h.simulates (fun {temporaries w w' d} hd hplace huse => ⟨temporaries, ?_⟩)
    fun _ _ huse => nomatch huse
  rw [Instr.run, bind_eq_ok_iff]
  refine ⟨d, w, ofStore_place hplace, ?_⟩
  rw [if_pos (htype hd), bind_eq_ok_iff]
  exact ⟨(), w', huse, rfl⟩

theorem assign (h : Computes I symbols bound kept code place value) (target : String) :
    Simulates I symbols bound (code ++ [.assign target place])
      (Run.ofStore value >>= I.assign symbols target) := by
  refine h.simulates (fun {temporaries w w' d} hd hplace huse => ⟨temporaries, ?_⟩)
    fun {temporaries w w' d halt} hd hplace huse => ?_
  · rw [Instr.run, bind_eq_ok_iff]
    exact ⟨d, w, ofStore_place hplace, bind_eq_ok_iff.mpr ⟨(), w', huse, rfl⟩⟩
  · rw [Instr.run, bind_eq_error_iff]
    exact .inr ⟨d, w, ofStore_place hplace, bind_eq_error_iff.mpr (.inl huse)⟩

theorem branch (h : Computes I symbols bound kept code place value) {yes no : List Instr}
    {r r' : Run V T Unit} (hyes : Simulates I symbols bound yes r)
    (hno : Simulates I symbols bound no r') :
    Simulates I symbols bound (code ++ [.branch place yes no])
      (Run.ofStore value >>= fun d => if I.holds d.type d.value then r else r') := by
  refine h.simulates (fun {temporaries w w' d} hd hplace huse => ⟨temporaries, ?_⟩)
    fun {temporaries w w' d halt} hd hplace huse => ?_
  · rw [Instr.run, bind_eq_ok_iff]
    refine ⟨d, w, ofStore_place hplace, ?_⟩
    cases hholds : I.holds d.type d.value with
    | true =>
        simp only [hholds, if_true] at huse ⊢
        obtain ⟨inner, hinner⟩ := hyes.ok temporaries huse
        exact bind_eq_ok_iff.mpr ⟨some inner, w', hinner, rfl⟩
    | false =>
        simp only [hholds, Bool.false_eq_true, if_false] at huse ⊢
        obtain ⟨inner, hinner⟩ := hno.ok temporaries huse
        exact bind_eq_ok_iff.mpr ⟨some inner, w', hinner, rfl⟩
  · rw [Instr.run, bind_eq_error_iff]
    refine .inr ⟨d, w, ofStore_place hplace, ?_⟩
    cases hholds : I.holds d.type d.value with
    | true =>
        simp only [hholds, if_true] at huse ⊢
        exact bind_eq_error_iff.mpr (.inl (hyes.error temporaries huse))
    | false =>
        simp only [hholds, Bool.false_eq_true, if_false] at huse ⊢
        exact bind_eq_error_iff.mpr (.inl (hno.error temporaries huse))

/-- A round of a loop in C, which computes the condition first and leaves the loop if it
does not hold, is a round of the loop of the program. -/
theorem round (h : Computes I symbols bound kept code place value) {body : List Instr}
    {r : Run V T Unit} (hbody : Simulates I symbols bound body r)
    (temporaries : Temporaries V) :
    (do
      let inner ←
        Instr.runAll I symbols bound temporaries (code ++ .leaveUnless place :: body)
      return inner.isSome : Run V T Bool) =
    (do
      let d ← Run.ofStore value
      if I.holds d.type d.value then
        r
        return true
      else return false) := by
  funext w
  -- The round ends in its condition, or it leaves the loop, or it goes on to the body.
  cases hvalue : value w.store with
  | error halt =>
      have hcode := h.error temporaries hvalue
      rw [bind_of_error (runAll_append_of_error hcode),
        bind_of_error (ofStore_eq_error_iff.mpr ⟨hvalue, rfl⟩)]
  | ok d =>
      obtain ⟨temporaries', hcode, hplace, -⟩ := h.ok temporaries hvalue
      have hall : Instr.runAll I symbols bound temporaries
          (code ++ .leaveUnless place :: body) w = _ := runAll_append_of_ok hcode
      rw [bind_of_ok (ofStore_eq_ok_iff.mpr ⟨hvalue, rfl⟩)]
      have hleave : Instr.run I symbols bound temporaries' (.leaveUnless place) w =
          .ok (if I.holds d.type d.value then some temporaries' else none) w := by
        rw [Instr.run, bind_of_ok (ofStore_place hplace)]
        rfl
      cases hholds : I.holds d.type d.value with
      | false =>
          simp only [hholds, Bool.false_eq_true, if_false] at hleave ⊢
          rw [runAll_cons_of_none hleave] at hall
          rw [bind_of_ok hall]
          rfl
      | true =>
          simp only [hholds, if_true] at hleave ⊢
          rw [runAll_cons_of_ok hleave] at hall
          cases hr : r w with
          | ok u w' =>
              obtain ⟨inner, hinner⟩ := hbody.ok temporaries' hr
              rw [bind_of_ok (hall.trans hinner), bind_of_ok hr]
              rfl
          | error halt w' =>
              rw [bind_of_error (hall.trans (hbody.error temporaries' hr)), bind_of_error hr]

/-- A loop that computes its condition at the start of each round. -/
theorem loop (h : Computes I symbols bound kept code place value) {body : List Instr}
    {r : Run V T Unit} (hbody : Simulates I symbols bound body r) :
    Simulates I symbols bound [.loop (code ++ .leaveUnless place :: body)]
      (Run.iterate (do
        let d ← Run.ofStore value
        if I.holds d.type d.value then
          r
          return true
        else return false) bound) where
  ok := by
    intro temporaries w w' hrun
    refine ⟨temporaries, ?_⟩
    rw [← h.round hbody temporaries] at hrun
    have hi : Instr.run I symbols bound temporaries
        (.loop (code ++ .leaveUnless place :: body)) w = .ok (some temporaries) w' := by
      rw [Instr.run]
      exact bind_of_ok hrun
    rw [runAll_cons_of_ok hi, Instr.runAll]
    rfl
  error := by
    intro temporaries w w' halt hrun
    rw [← h.round hbody temporaries] at hrun
    have hi : Instr.run I symbols bound temporaries
        (.loop (code ++ .leaveUnless place :: body)) w = .error halt w' := by
      rw [Instr.run]
      exact bind_of_error hrun
    exact runAll_cons_of_error hi

end Computes

end ImpToC.C
