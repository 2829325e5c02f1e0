import Scriptlet.Proofs.Machine.Adequacy
import Scriptlet.Proofs.Machine.Invariant

/-!
# Runs keep what the operations keep

**Theorem (`Holds.later`).** If an invariant is kept by the operations on a store and by the calls
of natives, then it holds of every configuration of every run that begins with it, and the store
changes only in the way it may. Calls of the standard natives keep whatever the operations keep
(`answers_standard`).

**Theorem (`Kept.of_eval`).** So does the evaluator, whose ends are ends of such runs.

The natives come first, then the steps of the machine, one lemma for each kind of control, and
last the runs. A step from good parts to good parts is most often a matter of comparing lists:
what is in use after it was in use before.
-/

namespace Scriptlet

namespace Machine

namespace Invariant

variable {I : Invariant} {reg : Registry} {σ : Store}

/-! ## Natives -/

theorem Stable.respects_ofUnary (hI : I.Stable) {name : String} {f : Value → Action Value}
    (hf : ∀ v σ, I.store σ → I.value σ v → I.Safe (fun _ _ => True) I.value σ (f v σ)) :
    I.Respects (Native.ofUnary name f) := by
  intro args σ hσ hargs
  unfold Native.ofUnary
  split
  · exact hf _ σ hσ (hargs _ List.mem_cons_self)
  · exact hI.safe_fail hσ trivial

theorem Stable.respects_ofBinary (hI : I.Stable) {name : String} {f : Value → Value → Action Value}
    (hf : ∀ v w σ, I.store σ → I.value σ v →
      I.Safe (fun _ _ => True) I.value σ (f v w σ)) :
    I.Respects (Native.ofBinary name f) := by
  intro args σ hσ hargs
  unfold Native.ofBinary
  split
  · exact hf _ _ σ hσ (hargs _ List.mem_cons_self)
  · exact hI.safe_fail hσ trivial

theorem Stable.respects_len (hI : I.Stable) : I.Respects Native.len := by
  refine hI.respects_ofUnary fun v σ hσ _ => ?_
  cases v with
  | string s => exact hI.safe_pure hσ (hI.integer _)
  | array id => exact ⟨hI.allows_refl hσ, hI.integer _⟩
  | hash id => exact ⟨hI.allows_refl hσ, hI.integer _⟩
  | _ => exact hI.safe_fail hσ trivial

theorem Stable.respects_append (hI : I.Stable) : I.Respects Native.append := by
  intro args σ hσ hargs
  unfold Native.append
  split
  · rename_i id v
    have hid : I.value σ (.array id) := hargs _ (by simp)
    have hv : I.value σ v := hargs _ (by simp)
    have hmod : I.Allows σ (σ.modifyItems id (·.push v)) := by
      refine hI.modifyItems hσ hid fun w hw => ?_
      rcases Array.mem_push.1 hw with hw | rfl
      · exact hI.item hσ hid hw
      · exact hv
    exact ⟨hmod, hI.value_mono hmod.2 hid⟩
  · rename_i id k v
    have hid : I.value σ (.hash id) := hargs _ (by simp)
    have hv : I.value σ v := hargs _ (by simp)
    refine hI.safe_bind (Q := fun _ _ => True) ?_ fun _ τ hτ _ =>
      hI.safe_pure hτ.1 (hI.value_mono hτ.2 hid)
    unfold Store.setEntry
    cases hk : k.key with
    | error e => exact ⟨hI.allows_refl hσ, trivial⟩
    | ok key =>
      refine ⟨hI.modifyPairs hσ hid fun w hw => ?_, trivial⟩
      rcases OrderedMap.mem_values_insert hw with rfl | hw
      · exact hv
      · exact hI.entry hσ hid hw
  all_goals exact hI.safe_fail hσ trivial

theorem Stable.respects_remove (hI : I.Stable) : I.Respects Native.remove := by
  refine hI.respects_ofBinary fun v w σ hσ hv => ?_
  split
  · rename_i id n
    refine hI.safe_bind (Q := fun _ _ => True) ?_ fun taken τ hτ _ =>
      hI.safe_pure hτ.1 (hI.bool _)
    unfold Store.takeItem
    cases n.place? with
    | none => exact ⟨hI.allows_refl hσ, trivial⟩
    | some i =>
      refine ⟨hI.modifyItems hσ hv fun u hu => hI.item hσ hv ?_, trivial⟩
      rw [← Array.mem_toList_iff, Array.toList_eraseIdxIfInBounds] at hu
      exact Array.mem_toList_iff.1 (List.mem_of_mem_eraseIdx hu)
  · exact hI.safe_fail hσ trivial
  · rename_i id
    refine hI.safe_bind (Q := fun _ _ => True) ?_ fun taken τ hτ _ =>
      hI.safe_pure hτ.1 (hI.bool _)
    unfold Store.takeEntry
    cases w.key with
    | error e => exact ⟨hI.allows_refl hσ, trivial⟩
    | ok key =>
      refine ⟨hI.modifyPairs hσ hv fun u hu => hI.entry hσ hv ?_, trivial⟩
      exact OrderedMap.mem_values_erase hu
  · exact hI.safe_fail hσ trivial

theorem Stable.respects_print (hI : I.Stable) : I.Respects Native.print := by
  intro args σ hσ _
  rw [Native.print, Run.bind_apply, Run.read_apply]
  refine hI.safe_bind (Q := fun _ _ => True) ?_ fun _ τ hτ _ => hI.safe_pure hτ.1 hI.null
  unfold Store.print
  rcases σ.output.write _ with ⟨_ | reason, output⟩
  · exact ⟨hI.rest σ.stamps output hσ, trivial⟩
  · exact ⟨hI.rest σ.stamps output hσ, trivial⟩

theorem Stable.respects_int (hI : I.Stable) : I.Respects Native.int := by
  refine hI.respects_ofUnary fun v σ hσ _ => ?_
  cases v with
  | string s =>
    dsimp only
    cases Native.leadingInteger? s with
    | some n => exact hI.safe_pure hσ (hI.integer n)
    | none => exact hI.safe_pure hσ hI.null
  | _ => exact hI.safe_fail hσ trivial

/-- What a native gives may be in use also after the call has looked for a signal in it. -/
theorem Stable.answers (hI : I.Stable) {native : Native} (h : I.Respects native) :
    I.Answers native := by
  intro args σ hσ hargs
  refine hI.safe_bind (safe_raising (h args σ hσ hargs)) fun v τ hτ hv => ?_
  cases v with
  | ret v => exact hI.safe_pure hτ.1 (hI.returned hv)
  | error e => exact hI.safe_raise hτ.1
  | _ => exact hI.safe_pure hτ.1 hv

theorem Stable.respects_standard (hI : I.Stable) : Registry.standard.Every I.Respects := by
  have htypeOf : I.Respects Native.typeOf :=
    hI.respects_ofUnary fun v σ hσ _ => hI.safe_pure hσ (hI.string _)
  have hstring : I.Respects Native.string :=
    fun args σ hσ _ => ⟨hI.allows_refl hσ, hI.string _⟩
  exact Registry.every_standard hI.respects_len hI.respects_append hI.respects_remove htypeOf
    hI.respects_print hstring hI.respects_int

theorem Stable.answers_standard (hI : I.Stable) : Registry.standard.Every I.Answers :=
  hI.respects_standard.mono fun _ => hI.answers

/-! ## Steps -/

/-- `d` is good in all its parts, and the store may change from `σ` to that of `d`. -/
def Onward (I : Invariant) (σ : Store) (d : Config) : Prop := I.Holds d ∧ I.change σ d.store

section

variable {α : Type} {K : List Frame} {env : ScopeId}

theorem Kept.onward (hI : I.Kept) {k : Control} (hσ : I.store σ)
    (hk : I.Uses σ k.scopes k.values) (hK : I.Waits σ K) :
    I.Onward σ ⟨k, K, σ⟩ :=
  ⟨⟨hσ, hk, hK⟩, hI.refl σ⟩

theorem Kept.onward_perform (hI : I.Kept) {x : Eval α} {next : α → Control} (hσ : I.store σ)
    (hK : I.Waits σ K)
    (hx : I.Safe I.Carried (fun τ a => I.Uses τ (next a).scopes (next a).values) σ (x σ)) :
    I.Onward σ (perform x next K σ) := by
  unfold perform
  cases hxσ : x σ with
  | ok a τ =>
    rw [hxσ] at hx
    exact ⟨⟨hx.1.1, hx.2, hI.waits_mono hx.1.2 hK⟩, hx.1.2⟩
  | error sig τ =>
    rw [hxσ] at hx
    exact ⟨⟨hx.1.1, hx.2, hI.waits_mono hx.1.2 hK⟩, hx.1.2⟩
  | outOfFuel => exact hI.onward hσ ⟨nofun, nofun⟩ hK

theorem Safe.mono {P Q : Store → α → Prop} {o : Outcome Store Signal α}
    (h : I.Safe I.Carried P σ o) (hPQ : ∀ τ a, I.change σ τ → P τ a → Q τ a) :
    I.Safe I.Carried Q σ o := by
  cases o with
  | ok a τ => exact ⟨h.1, hPQ τ a h.1.2 h.2⟩
  | error sig τ => exact h
  | outOfFuel => trivial

/-- Most often what is performed has a value for a result. -/
theorem Kept.onward_result (hI : I.Kept) {x : Eval α} (w : α → Value) (hσ : I.store σ)
    (hK : I.Waits σ K)
    (hx : I.Safe I.Carried (fun τ a => I.value τ (w a)) σ (x σ)) :
    I.Onward σ (perform x (fun a => .done (w a)) K σ) := by
  refine hI.onward_perform hσ hK (hx.mono fun τ a _ ha => ⟨nofun, fun v hv => ?_⟩)
  rw [List.mem_singleton.1 hv]
  exact ha

theorem Kept.onward_execute (hI : I.Kept) (hσ : I.store σ) (hs : I.scope σ env)
    (hK : I.Waits σ K) (s : Stmt) :
    I.Onward σ (execute env K σ s) := by
  cases s with
  | declare t constant x e =>
    exact hI.onward hσ (by simpa [Uses] using hs)
      (hK.push (by simpa [Uses] using hs))
  | ret t e =>
    exact hI.onward hσ (by simpa [Uses] using hs)
      (hK.push (by simp [Uses]))
  | expr t e => exact hI.onward hσ (by simpa [Uses] using hs) hK
  | block b => exact hI.onward hσ (by simpa [Uses] using ⟨hs, hI.null⟩) hK

theorem Kept.onward_evaluate (hI : I.Kept) (hσ : I.store σ) (hs : I.scope σ env)
    (hK : I.Waits σ K) (e : Expr) :
    I.Onward σ (evaluate reg env K σ e) := by
  have heval : ∀ e, I.Uses σ (Control.eval env e).scopes (Control.eval env e).values :=
    fun e => by simpa [Uses] using hs
  have hcons : ∀ F : Frame, F.scopes ⊆ [env] → F.values = [] →
      I.Waits σ (F :: K) := by
    intro F hFs hFv
    refine hK.push ⟨fun s hF => ?_, by rw [hFv]; exact nofun⟩
    rw [List.mem_singleton.1 (hFs hF)]
    exact hs
  cases e with
  | ident x => exact hI.onward_result id hσ hK (hI.safe_name hσ hs)
  | int t k => exact hI.onward hσ (by simpa [Uses] using hI.integer k) hK
  | str t s => exact hI.onward hσ (by simpa [Uses] using hI.string s) hK
  | bool t b => exact hI.onward hσ (by simpa [Uses] using hI.bool b) hK
  | null t => exact hI.onward hσ (by simpa [Uses] using hI.null) hK
  | unary t op e => exact hI.onward hσ (heval e) (hcons _ (by simp) rfl)
  | binary t op l r => exact hI.onward hσ (heval l) (hcons _ (by simp) rfl)
  | assign t x e => exact hI.onward hσ (heval e) (hcons _ (by simp) rfl)
  | ifElse t test yes no => exact hI.onward hσ (heval test) (hcons _ (by simp) rfl)
  | fn t params body =>
    exact hI.onward_result _ hσ hK ((hI.safe_newStamp hσ).mono fun τ _ hτ _ =>
      hI.function.2 (hI.scope_mono hτ hs))
  | call t f args => exact hI.onward hσ (heval f) (hcons _ (by simp) rfl)
  | array t es => exact hI.onward hσ (by simpa [Uses, Goal.values] using hs) hK
  | hash t kvs =>
    exact hI.onward hσ (by simpa [Uses, OrderedMap.values, OrderedMap.empty] using hs) hK
  | index t e i => exact hI.onward hσ (heval e) (hcons _ (by simp) rfl)
  | forIn t index value target body =>
    refine hI.onward_perform hσ hK (hI.safe_bind (hI.safe_name hσ hs) fun v τ hτ hv => ?_)
    refine (hI.safe_entries hτ.1 hv).mono fun ρ es hρ hes => ?_
    have hsρ : I.scope ρ env := hI.scope_mono hρ (hI.scope_mono hτ.2 hs)
    refine ⟨by simpa using hsρ, fun w hw => ?_⟩
    rcases List.mem_append.1 hw with hw | hw
    · obtain ⟨e, he, rfl⟩ := List.mem_map.1 hw
      exact (hes e he).1
    · obtain ⟨e, he, rfl⟩ := List.mem_map.1 hw
      exact (hes e he).2

/-- A scope of its own is inside one in use, and begins with values in use. -/
theorem Kept.onward_enter (hI : I.Kept) {s : ScopeId} {bs : List (Ident × Value)}
    (hσ : I.store σ) (hs : I.scope σ s) (hbs : ∀ b ∈ bs, I.value σ b.2) (ss : List Stmt)
    (hK : I.Waits σ K) :
    I.Onward σ (perform (Store.openScope (some s)) (fun t => .enter t bs ss) K σ) := by
  refine hI.onward_perform hσ hK ((hI.safe_openScope hσ hs).mono fun τ t hτ ht => ?_)
  refine ⟨by simpa using ht, fun v hv => ?_⟩
  obtain ⟨b, hb, rfl⟩ := List.mem_map.1 hv
  exact hI.value_mono hτ (hbs b hb)

theorem Kept.onward_call (hI : I.Kept) (hreg : reg.Every I.Answers) (hσ : I.store σ)
    (f : Expr) {callee : Value} {args : List Value} (hcallee : I.value σ callee)
    (hargs : ∀ v ∈ args, I.value σ v) (hK : I.Waits σ K) :
    I.Onward σ (call reg f callee args K σ) := by
  cases callee with
  | function c =>
    unfold call
    by_cases hlen : args.length = c.params.length
    · simp only [if_pos hlen]
      refine hI.onward_enter hσ (hI.function.1 hcallee) (fun b hb => ?_) c.body.stmts
        (hK.push ⟨nofun, nofun⟩)
      exact hargs _ (List.of_mem_zip hb).2
    · simp only [if_neg hlen]
      exact hI.onward hσ ⟨nofun, nofun⟩ hK
  | native x =>
    refine hI.onward_result id hσ hK ?_
    rw [Eval.apply]
    cases hx : reg.find? x with
    | none => exact hI.safe_raise hσ
    | some native =>
      exact hreg x native hx args σ hσ hargs
  | _ => exact hI.onward_result id hσ hK (hI.safe_raise hσ)

theorem Kept.onward_advance (hI : I.Kept) (hreg : reg.Every I.Answers) (hσ : I.store σ)
    {k : Control} (hk : I.Uses σ k.scopes k.values)
    (hK : I.Waits σ K) : I.Onward σ (advance reg K σ k) := by
  cases k with
  | exec env s => exact hI.onward_execute hσ (by simpa using hk.1) hK s
  | eval env e => exact hI.onward_evaluate hσ (by simpa using hk.1) hK e
  | sequence env last ss =>
    cases ss with
    | nil => exact hI.onward hσ ⟨nofun, hk.2⟩ hK
    | cons s ss =>
      exact hI.onward hσ ⟨hk.1, nofun⟩ (hK.push ⟨hk.1, nofun⟩)
  | collect env goal vs es =>
    cases es with
    | cons e es => exact hI.onward hσ ⟨hk.1, nofun⟩ (hK.push hk)
    | nil =>
      cases goal with
      | array =>
        exact hI.onward_result _ hσ hK (hI.safe_newArray hσ fun v hv => hk.2 v (by
          simpa [Goal.values] using hv))
      | call f callee =>
        exact hI.onward_call hreg hσ f (hk.2 callee List.mem_cons_self)
          (fun v hv => hk.2 v (List.mem_cons_of_mem _ hv)) hK
  | pairs env entries kvs =>
    cases kvs with
    | nil => exact hI.onward_result _ hσ hK (hI.safe_newHash hσ hk.2)
    | cons kv kvs => exact hI.onward hσ ⟨hk.1, nofun⟩ (hK.push hk)
  | passes l es =>
    have hl : I.scope σ l.env := hk.1 l.env List.mem_cons_self
    cases es with
    | nil =>
      exact hI.onward_result _ hσ hK ((hI.safe_newStamp hσ).mono fun τ _ hτ _ =>
        hI.loop (hI.scope_mono hτ hl))
    | cons e es =>
      have he₁ : I.value σ e.1 := hk.2 _ (List.mem_append_left _ List.mem_cons_self)
      have he₂ : I.value σ e.2 := hk.2 _ (List.mem_append_right _ List.mem_cons_self)
      refine hI.onward_enter hσ hl ?_ l.body.stmts (hK.push ⟨hk.1, ?_⟩)
      · exact List.forall_mem_cons.2 ⟨he₁, List.forall_mem_singleton.2 he₂⟩
      · refine fun v hv => hk.2 v ?_
        rcases List.mem_append.1 hv with hv | hv
        · exact List.mem_append_left _ (List.mem_cons_of_mem _ hv)
        · exact List.mem_append_right _ (List.mem_cons_of_mem _ hv)
  | enter s bs ss =>
    have hs : I.scope σ s := hk.1 s List.mem_cons_self
    cases bs with
    | nil => exact hI.onward hσ ⟨hk.1, by simpa using hI.null⟩ hK
    | cons b bs =>
      have hb : I.value σ b.2 := hk.2 _ List.mem_cons_self
      refine hI.onward_perform hσ hK ((safe_raising (hI.safe_define hσ hs hb)).mono
        fun τ _ hτ _ => ?_)
      exact hI.uses_mono hτ ⟨hk.1, fun v hv => hk.2 v (List.mem_cons_of_mem _ hv)⟩
  | done v => exact hI.onward hσ hk hK
  | unwind sig => exact hI.onward hσ hk hK
  | hang => exact hI.onward hσ hk hK

theorem Kept.onward_resume (hI : I.Kept) (hσ : I.store σ) {v : Value} (hv : I.value σ v)
    {F : Frame} (hF : I.Uses σ F.scopes F.values) (hK : I.Waits σ K) :
    I.Onward σ (resume v K σ F) := by
  cases F with
  | declare env constant x =>
    have hs : I.scope σ env := hF.1 env List.mem_cons_self
    have hbind : I.Safe (fun _ _ => True) (fun _ _ => True) σ ((if constant then
        Store.defineConstant env x.name v else Store.define env x.name v) σ) := by
      cases constant with
      | true => exact hI.safe_defineConstant hσ hs hv
      | false => exact hI.safe_define hσ hs hv
    exact hI.onward_result _ hσ hK ((safe_raising hbind).mono fun _ _ _ _ => hI.null)
  | ret => exact hI.onward hσ ⟨nofun, by simpa using hv⟩ hK
  | unary op =>
    exact hI.onward_result id hσ hK (hI.safe_ofExcept hσ fun w hw => hI.unary hw)
  | left env op r =>
    exact hI.onward hσ ⟨hF.1, nofun⟩ (hK.push ⟨nofun, by simpa using hv⟩)
  | right op l =>
    exact hI.onward_result id hσ hK (hI.safe_ofExcept hσ fun w hw => hI.binary hw)
  | assign env x =>
    have hs : I.scope σ env := hF.1 env List.mem_cons_self
    exact hI.onward_result _ hσ hK ((safe_raising (hI.safe_reassign hσ hs hv)).mono
      fun τ _ hτ _ => hI.value_mono hτ hv)
  | branch env yes no =>
    have hb : ∀ b : Block, I.Onward σ ⟨.sequence env .null b.stmts, K, σ⟩ :=
      fun b => hI.onward hσ ⟨hF.1, by simpa using hI.null⟩ hK
    unfold resume
    by_cases htrue : v.truthy
    · simp only [if_pos htrue]
      exact hb yes
    · simp only [if_neg htrue]
      cases no with
      | some b => exact hb b
      | none => exact hI.onward hσ ⟨nofun, by simpa using hI.null⟩ hK
  | callee env f args =>
    exact hI.onward hσ ⟨hF.1, by simpa [Goal.values] using hv⟩ hK
  | element env goal vs es =>
    refine hI.onward hσ ⟨hF.1, fun w hw => ?_⟩ hK
    change w ∈ goal.values ++ (vs ++ [v]) at hw
    rw [← List.append_assoc] at hw
    rcases List.mem_append.1 hw with hw | hw
    · exact hF.2 w hw
    · rw [List.mem_singleton.1 hw]
      exact hv
  | key env entries e kvs =>
    unfold resume
    cases v.key with
    | ok k => exact hI.onward hσ ⟨hF.1, nofun⟩ (hK.push hF)
    | error e => exact hI.onward hσ ⟨nofun, nofun⟩ hK
  | entry env entries k kvs =>
    refine hI.onward hσ ⟨hF.1, fun w hw => ?_⟩ hK
    rcases OrderedMap.mem_values_insert hw with rfl | hw
    · exact hv
    · exact hF.2 w hw
  | base env i =>
    exact hI.onward hσ ⟨hF.1, nofun⟩ (hK.push ⟨nofun, by simpa using hv⟩)
  | position base =>
    exact hI.onward_result id hσ hK (hI.safe_ofExcept hσ fun w hw =>
      hI.index hσ (hF.2 base List.mem_cons_self) hw)
  | statement env ss => exact hI.onward hσ ⟨hF.1, by simpa using hv⟩ hK
  | pass l es => exact hI.onward hσ hF hK
  | body => exact hI.onward hσ ⟨nofun, by simpa using hv⟩ hK

theorem Kept.onward_pop (hI : I.Kept) (hσ : I.store σ) {sig : Signal} (hsig : I.Carried σ sig)
    (hK : I.Waits σ K) (F : Frame) : I.Onward σ (pop sig K σ F) := by
  cases F with
  | body =>
    cases sig with
    | ret v => exact hI.onward hσ hsig hK
    | raised e => exact hI.onward hσ hsig hK
  | _ => exact hI.onward hσ hsig hK

end

/-- One step keeps the invariant. -/
theorem Holds.step (hI : I.Kept) (hreg : reg.Every I.Answers) {c d : Config} (hc : I.Holds c)
    (hs : step reg c = some d) : I.Onward c.store d := by
  obtain ⟨k, K, σ⟩ := c
  obtain ⟨hσ, hk, hK⟩ := hc
  have hadv : ∀ k, I.Uses σ k.scopes k.values → I.Onward σ (advance reg K σ k) :=
    fun k hk => hI.onward_advance hreg hσ hk hK
  cases k with
  | done v =>
    cases K with
    | nil => cases hs
    | cons F K =>
      cases hs
      obtain ⟨hF, hK⟩ := List.forall_mem_cons.1 hK
      exact hI.onward_resume hσ (hk.2 v List.mem_cons_self) hF hK
  | unwind sig =>
    cases K with
    | nil => cases hs
    | cons F K =>
      cases hs
      exact hI.onward_pop hσ hk (List.forall_mem_cons.1 hK).2 F
  | _ => cases hs; exact hadv _ hk

/-! ## Runs -/

/-- A run keeps the invariant. -/
theorem Holds.reaches (hI : I.Kept) (hreg : reg.Every I.Answers) {c d : Config} (hc : I.Holds c)
    (h : Reaches reg c d) : I.Onward c.store d := by
  induction h with
  | refl => exact ⟨hc, hI.refl _⟩
  | tail _ hs ih =>
    have hd := ih.1.step hI hreg hs
    exact ⟨hd.1, hI.trans ih.2 hd.2⟩

/-- Where a program begins, nothing is in use but the scope it runs in. -/
theorem Kept.holds_begin (hI : I.Kept) (hσ : I.store σ) {env : ScopeId} (hs : I.scope σ env)
    (p : Program) : I.Holds (begin p env σ) := by
  have hk : I.Uses σ [env] [.null] :=
    ⟨List.forall_mem_singleton.2 hs, List.forall_mem_singleton.2 hI.null⟩
  exact ⟨hσ, hk, List.forall_mem_nil _⟩

/-- Programs run one after the other keep the invariant, at every point. -/
theorem Holds.later (hI : I.Kept) (hreg : reg.Every I.Answers) {env : ScopeId} {c d : Config}
    (hs : I.scope c.store env) (hc : I.Holds c) (h : Later reg env c d) :
    I.Onward c.store d := by
  induction h with
  | refl => exact ⟨hc, hI.refl _⟩
  | step _ hs ih =>
    have hd := ih.1.step hI hreg hs
    exact ⟨hd.1, hI.trans ih.2 hd.2⟩
  | next p _ _ ih => exact ⟨hI.holds_begin ih.1.store (hI.scope_mono ih.2 hs) p, ih.2⟩

/-- The evaluator keeps the invariant. -/
theorem Kept.of_eval (hI : I.Kept) (hreg : reg.Every I.Answers) {code : Code} {n : Nat}
    {env : ScopeId} {r : Except Signal Value} {τ : Store} (hσ : I.store σ)
    (hs : I.scope σ env) (h : code.eval reg n env σ = outcome r τ) :
    I.Onward σ ⟨final r, [], τ⟩ := by
  have hstart : I.Uses σ (code.start env).scopes (code.start env).values := by
    cases code with
    | stmts ss => exact ⟨List.forall_mem_singleton.2 hs, List.forall_mem_singleton.2 hI.null⟩
    | expr e => exact ⟨List.forall_mem_singleton.2 hs, List.forall_mem_nil _⟩
  have hc : I.Holds ⟨code.start env, [], σ⟩ := ⟨hσ, hstart, List.forall_mem_nil _⟩
  exact hc.reaches hI hreg (Code.reaches_of_eval h)

end Invariant

end Machine

end Scriptlet
