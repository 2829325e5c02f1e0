import Scriptlet.Proofs.Signals

/-!
# Signals that natives hand back

A native may hand back a signal as a value. The call of it looks at that value once: an error is
raised, and a return gives what is in it.

**Theorem (`native_signals_consumed`).** Let every native of the registry, over data, leave data
in the store and hand back data, an error, or a return of data. Let programs be run one after the
other over a store that holds no signal. Then at every point of the run no value in the store or
in use is a signal, no evaluation gives one for its value, and a call of a native either raises
the error that was handed back or goes on with data.

**Theorem (`native_gives_signal_iff`).** Without the condition a call gives a signal for its value
exactly when the native handed back a return with that signal in it, because what comes out of
a return is not looked at again. One native that does so is enough to bind a name to an error
(`returned_error_is_bound`).
-/

namespace Scriptlet

namespace Machine

open Eval Invariant

/-! ## One call -/

section

variable {reg : Registry} {x : String} {native : Native} {run : ScopeId → Stmt → Eval Value}
  {f : Expr} {args : List Value} {v w : Value} {σ τ : Store}

theorem apply_native (hx : reg.find? x = some native) (hv : native args σ = .ok v τ) :
    apply reg run f (.native x) args σ = ofNative v τ := by
  rw [apply, hx]
  simp [Run.bind_apply, raising, Run.mapError, hv]

theorem ofNative_eq_ok_iff : ofNative v σ = .ok w τ ↔ σ = τ ∧ (v = .ret w ∨ v = w ∧ w.isData) := by
  cases v with
  | error e =>
    refine ⟨nofun, fun h => ?_⟩
    obtain ⟨-, h | ⟨rfl, hw⟩⟩ := h
    · cases h
    · cases hw
  | ret v =>
    refine ⟨fun h => ?_, fun h => ?_⟩
    · cases h
      exact ⟨rfl, Or.inl rfl⟩
    · obtain ⟨rfl, h | ⟨rfl, hw⟩⟩ := h
      · cases h
        rfl
      · cases hw
  | _ =>
    refine ⟨fun h => ?_, fun h => ?_⟩
    · cases h
      exact ⟨rfl, Or.inr ⟨rfl, rfl⟩⟩
    · obtain ⟨rfl, h | ⟨rfl, hw⟩⟩ := h
      · cases h
      · rfl

/-- **The signals that a call lets through** are those inside of a return. -/
theorem native_gives_signal_iff (hx : reg.find? x = some native) (hw : w.isData = false) :
    apply reg run f (.native x) args σ = .ok w τ ↔ native args σ = .ok (.ret w) τ := by
  have hreturned : ∀ v ρ, ofNative v ρ = .ok w τ ↔ v = .ret w ∧ ρ = τ := by
    intro v ρ
    rw [ofNative_eq_ok_iff, hw]
    simp [and_comm]
  rw [apply, hx]
  dsimp only
  rw [Run.bind_eq_ok_iff]
  unfold raising Run.mapError
  cases hv : native args σ with
  | ok v ρ => simp [hreturned]
  | error e ρ => simp
  | outOfFuel => simp

end

end Machine

/-! ## Natives whose signals are taken out -/

/-- At most one signal is wrapped around data. -/
def Value.isUnwrapped : Value → Bool
  | .ret v => v.isData
  | _ => true

/-- Over data, a native leaves data in the store, and hands back data, an error, or a return of
data. -/
def Native.Unwraps (native : Native) : Prop :=
  ∀ args σ, σ.Clean → (∀ v ∈ args, v.isData) →
    Machine.data.Safe (fun _ _ => True) (fun _ v => v.isUnwrapped) σ (native args σ)

/-- The native that hands back `v`, whatever it is given. -/
def Native.handingBack (v : Value) : Native := fun _ => pure v

theorem Native.unwraps_handingBack {v : Value} (hv : v.isUnwrapped) : (handingBack v).Unwraps :=
  fun _ _ hσ _ => ⟨⟨hσ, trivial⟩, hv⟩

namespace Machine

open Eval Invariant

theorem unwraps_of_respects {native : Native} (h : data.Respects native) : native.Unwraps := by
  intro args σ hσ hargs
  have hsafe := h args σ hσ hargs
  cases hv : native args σ with
  | ok v τ =>
    rw [hv] at hsafe
    refine ⟨hsafe.1, ?_⟩
    have hdata : v.isData := hsafe.2
    cases v with
    | ret v => cases hdata
    | _ => rfl
  | error e τ =>
    rw [hv] at hsafe
    exact hsafe
  | outOfFuel => trivial

theorem unwraps_standard : Registry.standard.Every Native.Unwraps :=
  data_kept.respects_standard.mono fun _ => unwraps_of_respects

theorem isData_or_error {v : Value} (hv : v.isUnwrapped) :
    (∃ e, v = .error e) ∨ ∃ w, w.isData ∧ (v = w ∨ v = .ret w) := by
  cases v with
  | error e => exact Or.inl ⟨e, rfl⟩
  | ret w => exact Or.inr ⟨w, hv, Or.inr rfl⟩
  | _ => exact Or.inr ⟨_, rfl, Or.inl rfl⟩

/-- What a call goes on with. -/
theorem ofNative_unwrapped {v : Value} (hv : v.isUnwrapped) (σ : Store) :
    (∃ e, v = .error e ∧ ofNative v σ = .error (.raised e) σ) ∨
      ∃ w, w.isData ∧ (v = w ∨ v = .ret w) ∧ ofNative v σ = .ok w σ := by
  rcases isData_or_error hv with ⟨e, rfl⟩ | ⟨w, hw, hvw⟩
  · exact Or.inl ⟨e, rfl, rfl⟩
  · refine Or.inr ⟨w, hw, hvw, ofNative_eq_ok_iff.2 ⟨rfl, ?_⟩⟩
    rcases hvw with rfl | rfl
    · exact Or.inr ⟨rfl, hw⟩
    · exact Or.inl rfl

/-- Calls of such natives keep the store and what is in use to data. -/
theorem answers_of_unwraps {native : Native} (h : native.Unwraps) : data.Answers native := by
  intro args σ hσ hargs
  have hQ : data.Safe data.Carried (fun _ v => v.isUnwrapped) σ (raising (native args) σ) :=
    safe_raising (h args σ hσ hargs)
  refine data_kept.safe_bind hQ fun v τ hτ hv => ?_
  rcases ofNative_unwrapped hv τ with ⟨e, -, he⟩ | ⟨w, hw, -, hok⟩
  · rw [he]
    exact data_kept.safe_raise hτ.1
  · rw [hok]
    exact data_kept.safe_pure hτ.1 hw

/-! ## Whole runs -/

/-- **Signals that natives hand back do not get beyond the call.** -/
theorem native_signals_consumed {reg : Registry} (hreg : reg.Every Native.Unwraps) {σ : Store}
    {env : ScopeId} {p : Program} {c : Config} (hσ : σ.Clean)
    (hc : Later reg env (begin p env σ) c) :
    c.store.Clean ∧ (∀ v ∈ c.values, v.isData) ∧ (∀ v ∈ c.operands, v.isData) ∧
      (∀ (depth : Nat) (s : ScopeId) (e : Expr) (v : Value) (τ : Store),
        Eval.eval reg depth s e c.store = .ok v τ → v.isData) ∧
      ∀ (s : ScopeId) (f : Expr) (x : String) (args : List Value) (K : List Frame) (ρ τ : Store)
        (native : Native) (v : Value),
        c = ⟨.collect s (.call f (.native x)) args [], K, ρ⟩ → reg.find? x = some native →
          native args ρ = .ok v τ →
            (∃ e, v = .error e ∧ step reg c = some ⟨.unwind (.raised e), K, τ⟩) ∨
              ∃ w, w.isData ∧ (v = w ∨ v = .ret w) ∧ step reg c = some ⟨.done w, K, τ⟩ := by
  have hanswers : reg.Every data.Answers := hreg.mono fun _ => answers_of_unwraps
  have hholds : data.Holds c :=
    ((data_kept.holds_begin hσ trivial p).later data_kept hanswers trivial hc).1
  refine ⟨hholds.store, fun v hv => hholds.values hv,
    fun v hv => hholds.values (c.operands_subset hv), fun depth s e v τ he => ?_,
    fun s f x args K ρ τ native v hcall hx hv => ?_⟩
  · have hcode : (Code.expr e).eval reg depth s c.store = outcome (.ok v) τ := he
    exact (data_kept.of_eval hanswers hholds.store trivial hcode).1.values List.mem_cons_self
  · subst hcall
    have hargs : ∀ v ∈ args, v.isData := fun v hv =>
      hholds.control.2 v (List.mem_cons_of_mem _ hv)
    have hsafe := hreg x native hx args ρ hholds.store hargs
    rw [hv] at hsafe
    have hstep : step reg ⟨.collect s (.call f (.native x)) args [], K, ρ⟩ =
        some (perform (fun _ => ofNative v τ) .done K ρ) := by
      simp [step, advance, call, perform, apply_native hx hv]
    rw [hstep]
    rcases ofNative_unwrapped hsafe.2 τ with ⟨e, he, hraised⟩ | ⟨w, hw, hvw, hok⟩
    · refine Or.inl ⟨e, he, ?_⟩
      simp [perform, hraised]
    · refine Or.inr ⟨w, hw, hvw, ?_⟩
      simp [perform, hok]

/-- The program `five()` in a new session, with a native that hands back `return 5`. -/
theorem return_of_native_consumed :
    ∃ (reg : Registry) (c : Config), reg.find? "five" = some (.handingBack (.ret (.integer 5))) ∧
      Later reg 0 (begin ⟨[.expr ⟨.ident, "five", ⟨1, 1⟩⟩ (.call ⟨.lparen, "(", ⟨1, 5⟩⟩
        (.ident ⟨⟨.ident, "five", ⟨1, 1⟩⟩, "five"⟩) [])]⟩ 0
          (Session.new reg (.console #[])).store) c ∧
      c.operands = [.native "five"] ∧
      step reg c = some ⟨.done (.integer 5), [.statement 0 []], c.store⟩ := by
  let reg := Registry.standard.register "five" (.handingBack (.ret (.integer 5)))
  let σ := (Session.new reg (.console #[])).store
  let f : Expr := .ident ⟨⟨.ident, "five", ⟨1, 1⟩⟩, "five"⟩
  let c : Config := ⟨.collect 0 (.call f (.native "five")) [] [], [.statement 0 []], σ⟩
  have hname : step reg ⟨.eval 0 f, [.callee 0 f [], .statement 0 []], σ⟩ =
      some ⟨.done (.native "five"), [.callee 0 f [], .statement 0 []], σ⟩ := by
    simp [step, advance, evaluate, perform, f, Session.name_new, σ, reg, Registry.register]
  have hc : Later reg 0 (begin ⟨[.expr ⟨.ident, "five", ⟨1, 1⟩⟩ (.call ⟨.lparen, "(", ⟨1, 5⟩⟩
      f [])]⟩ 0 σ) c :=
    .step (.step (.step (.step (.step .refl rfl) rfl) rfl) hname) rfl
  have hreg : reg.Every Native.Unwraps :=
    unwraps_standard.register (Native.unwraps_handingBack rfl)
  have hcall := (native_signals_consumed hreg (clean_new reg _) hc).2.2.2.2 0 f "five" [] _ σ σ _
    _ rfl rfl rfl
  refine ⟨reg, c, rfl, hc, rfl, ?_⟩
  rcases hcall with ⟨e, he, -⟩ | ⟨w, hw, hv | hv, hstep⟩
  · cases he
  · cases hv
    cases hw
  · cases hv
    exact hstep

/-- The program `let x = reterr()` in a new session, with a native that hands back a return of an
error: the call has the error for its value, and `x` is bound to it. -/
theorem returned_error_is_bound :
    ∃ (reg : Registry) (call : Expr) (σ τ : Store),
      reg = Registry.standard.register "reterr" (.handingBack (.ret (.error .divisionByZero))) ∧
      call = .call ⟨.lparen, "(", ⟨1, 15⟩⟩ (.ident ⟨⟨.ident, "reterr", ⟨1, 9⟩⟩, "reterr"⟩) [] ∧
      σ = (Session.new reg (.console #[])).store ∧
      Eval.eval reg 2 0 call σ = .ok (.error .divisionByZero) σ ∧
      Program.run reg 3 0 ⟨[.declare ⟨.letKw, "let", ⟨1, 1⟩⟩ false
        ⟨⟨.ident, "x", ⟨1, 5⟩⟩, "x"⟩ call]⟩ σ = some (.null, τ) ∧
      τ.binding? 0 "x" = some ⟨.error .divisionByZero, false⟩ := by
  let reg := Registry.standard.register "reterr" (.handingBack (.ret (.error .divisionByZero)))
  let σ := (Session.new reg (.console #[])).store
  let call : Expr :=
    .call ⟨.lparen, "(", ⟨1, 15⟩⟩ (.ident ⟨⟨.ident, "reterr", ⟨1, 9⟩⟩, "reterr"⟩) []
  let s : Stmt := .declare ⟨.letKw, "let", ⟨1, 1⟩⟩ false ⟨⟨.ident, "x", ⟨1, 5⟩⟩, "x"⟩ call
  let τ := σ.bind 0 "x" ⟨.error .divisionByZero, false⟩
  have hname : name reg 0 "reterr" σ = .ok (.native "reterr") σ := Session.name_new _ rfl
  have hcall : Eval.eval reg 2 0 call σ = .ok (.error .divisionByZero) σ := by
    show (name reg 0 "reterr" >>= fun callee => _) σ = _
    rw [Run.bind_apply, hname]
    rfl
  have hlet : Eval.exec reg 3 0 s σ = .ok .null τ := by
    show (Eval.eval reg 2 0 call >>= fun v => _) σ = _
    rw [Run.bind_apply, hcall]
    rfl
  have hrun : Program.run reg 3 0 ⟨[s]⟩ σ = some (.null, τ) := by
    simp [Program.run, Eval.answer, Eval.sequence, hlet]
  exact ⟨reg, call, σ, τ, rfl, rfl, rfl, hcall, hrun, rfl⟩

end Machine

end Scriptlet
