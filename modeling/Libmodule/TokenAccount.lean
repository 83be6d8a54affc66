import Libmodule.Advancing
import Libmodule.Evolution
import Libmodule.Procedures
import Libmodule.PushedEvents
import Libmodule.RunChains

/-!
# The account of tokens

Every call that costs a token looks for it and takes it in one place, and only an event of the
internal timer puts one back.  So between two fillings of a bucket the calls of a module spend
no more tokens than were in it and were put back.
-/

namespace Libmodule

open RefHeap Reentrant

/-! ## Steps on a bucket -/

def tokensLeft (w : World) (m : ℕ) : ℕ := ((modAt w.heap m).map Mod.tbTokens).getD 0

/-- No module has more tokens than its bucket holds. -/
def WithinBurst (w : World) : Prop := ∀ m x, modAt w.heap m = some x → x.tbTokens ≤ x.tbBurst

/-- `push_evt` drops an event of the timer of the bucket. -/
def isRefillEvent (m : ℕ) (step : Step LibLang World) : Bool :=
  match step.act with
  | .op (.unrefEvt e) => (step.before.evtSrc e).any (TbTimer m)
  | _ => false

def takesToken (m : ℕ) (step : Step LibLang World) : Bool :=
  match step.act with
  | .op (.setMod p (.tbTokens tokens)) => p = m ∧ tokens < tokensLeft step.before m
  | _ => false

def putsToken (m : ℕ) (step : Step LibLang World) : Bool :=
  match step.act with
  | .op (.setMod p (.tbTokens tokens)) => p = m ∧ tokensLeft step.before m < tokens
  | _ => false

/-- The step makes the bucket of `m`, or sets it, to this burst. -/
def Fills (m burst : ℕ) (step : Step LibLang World) : Prop :=
  match step.act with
  | .op (.setMod p (.tb _ burst' _ _)) => p = m ∧ burst' = burst
  | .op (.newMod ..) => m = step.before.heap.length ∧ burst = UINT64_MAX
  | _ => False

/-- One token is taken where there is one, or put back where there is room. -/
def OneToken (step : Step LibLang World) : Prop :=
  match step.act with
  | .op (.setMod m (.tbTokens tokens)) => ∃ x, modAt step.before.heap m = some x ∧
      (tokens + 1 = x.tbTokens ∨ tokens = x.tbTokens + 1 ∧ tokens ≤ x.tbBurst)
  | _ => True

/-! ## Pushing events -/

section Pushing

variable {γ ι : Type} {W : Monitor LibLang World γ} {I : ι → World → γ → Prop} {depth m e : ℕ}
  {i : ι} {w : World} {g : γ}

/-- What is read is part of the state, which stays as it is. -/
theorem grants_look {α : Type} {f : World → Option α} (hhalt : ∀ i w g, I i w g →
      W.shown g ⟨.halt, w⟩) (hget : Op.get.Kept W I) (hI : I i w g) :
    (getWorld >>= fun w => orHalt (f w)).Grants (handler depth) W w g
      (fun a w' g' => f w = some a ∧ w' = w ∧ I i w' g') := by
  have hread : getWorld.Grants (handler depth) W w g
      (fun r w' g' => r = w ∧ w' = w ∧ I i w' g') := by
    refine grants_act fun hassumed => ⟨(hget i w g hI hassumed).1, fun r w' hexec => ?_⟩
    have hkept := (hget i w g hI hassumed).2 r w' hexec
    cases hexec
    exact ⟨rfl, rfl, hkept⟩
  apply hread.bind
  rintro _ _ g' ⟨rfl, rfl, hI'⟩
  cases f _ with
  | none => exact Prog.Grants.halt (hhalt i _ g' hI')
  | some a => exact Prog.Grants.pure ⟨rfl, rfl, hI'⟩

/-- `push_evt` looks for the source of the event, and goes on as `pushSrc`. -/
theorem respects_pushEvt (hhalt : ∀ i w g, I i w g → W.shown g ⟨.halt, w⟩)
    (hget : Op.get.Kept W I)
    (hsrc : ∀ src i w g, I i w g → w.evtSrc e = some src →
      (pushSrc m e src).Grants (handler depth) W w g (fun _ => I i)) :
    Respects depth W I (pushEvt m e) := by
  intro i w g hI
  apply (grants_look hhalt hget hI).bind
  rintro y w' g' ⟨hy, rfl, hI'⟩
  split
  next hp =>
    have hnone : (pure none : Lm (Option EvSource)).Grants (handler depth) W w' g'
        (fun src w₁ g₁ => w₁.evtSrc e = some src ∧ I i w₁ g₁) :=
      Prog.Grants.pure ⟨by simp [World.evtSrc, hy, hp], hI'⟩
    exact hnone.bind (fun src w₁ g₁ h => hsrc src i w₁ g₁ h.2 h.1)
  next p hp =>
    have hread : (some <$> derefSrc p).Grants (handler depth) W w' g'
        (fun src w₁ g₁ => w₁.evtSrc e = some src ∧ I i w₁ g₁) := by
      apply (grants_look hhalt hget hI').bind
      rintro s w₁ g₁ ⟨hs, rfl, hI₁⟩
      exact Prog.Grants.pure ⟨by simp [World.evtSrc, hy, hp, hs], hI₁⟩
    exact hread.bind (fun src w₁ g₁ h => hsrc src i w₁ g₁ h.2 h.1)

end Pushing

/-! ## What the functions do -/

/-- The source of the event that has just been dropped. -/
def droppedNext (dropped : Option (Option EvSource)) (step : Step LibLang World) :
    Option (Option EvSource) :=
  match step.act with
  | .op .get => dropped
  | .op (.unrefEvt e) => step.before.evtSrc e
  | _ => none

/-- A token is put back for an event, and a bucket that is set is full. -/
def TokenStep (dropped : Option (Option EvSource)) (step : Step LibLang World) : Prop :=
  match step.act with
  | .op (.setMod m (.tbTokens tokens)) => ∃ x, modAt step.before.heap m = some x ∧
      (tokens + 1 = x.tbTokens ∨
        dropped.any (TbTimer m) ∧ tokens = x.tbTokens + 1 ∧ tokens ≤ x.tbBurst)
  | .op (.setMod _ (.tb _ burst tokens _)) => tokens = burst
  | _ => True

def tokenMonitor : Monitor LibLang World (Option (Option EvSource)) where
  next := droppedNext
  assumed := fun _ _ => True
  shown := TokenStep

abbrev KeepsTokens (depth : ℕ) ⦃α : Type⦄ (p : Lm α) : Prop :=
  Respects depth tokenMonitor (fun (_ : Unit) _ _ => True) p

section Functions

variable {depth m e : ℕ} {w : World} {g : Option (Option EvSource)} {o : Op}

theorem Op.Bare.kept (ho : o.Bare) : o.Kept tokenMonitor (fun (_ : Unit) _ _ => True) := by
  intro _ w g _ _
  refine ⟨?_, fun _ _ _ => trivial⟩
  cases o with
  | setMod m field =>
      cases field with
      | tbTokens => exact ho.elim
      | tb => exact ho
      | _ => trivial
  | enqueueBatch | takeBatch => exact ho.elim
  | _ => trivial

theorem keepsTokens_enqueueBatch : KeepsTokens depth (act (.enqueueBatch m e)) :=
  respects_act (fun _ _ _ _ _ => ⟨trivial, fun _ _ _ => trivial⟩)

theorem keepsTokens_takeBatch : KeepsTokens depth (act (.takeBatch m)) :=
  respects_act (fun _ _ _ _ _ => ⟨trivial, fun _ _ _ => trivial⟩)

theorem Op.Bare.keepsTokens (ho : o.Bare) : KeepsTokens depth (act o) := respects_act ho.kept

/-- A read leaves what is remembered. -/
theorem grants_derefMod : (derefMod m).Grants (handler depth) tokenMonitor w g
    (fun x w' g' => modAt w.heap m = some x ∧ w' = w ∧ g' = g) :=
  grants_look (I := fun (_ : Unit) _ g' => g' = g) (i := ()) (fun _ _ _ _ => trivial)
    (fun _ _ _ hg _ => ⟨trivial, fun _ _ _ => hg⟩) rfl

/-- A token is taken only after it has been looked for. -/
theorem keepsTokens_consumeToken {rest : Lm ℤ} (hrest : KeepsTokens depth rest) :
    KeepsTokens depth (consumeToken m rest) := by
  intro i w g _
  apply grants_derefMod.bind
  rintro x w' g' ⟨hx, rfl, rfl⟩
  split
  next => exact Prog.Grants.pure trivial
  next htoken =>
    have hpay : (act (.setMod m (.tbTokens (x.tbTokens - 1)))).Grants (handler depth) tokenMonitor
        w' g' (fun _ _ _ => True) :=
      grants_act fun _ => ⟨⟨x, hx, .inl (by omega)⟩, fun _ _ _ => trivial⟩
    exact hpay.bind (fun _ _ _ _ => hrest i _ _ trivial)

end Functions

section Procedures

variable {depth m e : ℕ} {w : World} {g : Option (Option EvSource)}

theorem closed_keepsTokens (hH : (machine.handler depth).Maintains tokenMonitor
      (fun (_ : Unit) _ _ => True) (fun _ _ _ _ => True)) : Closed (KeepsTokens depth) where
  toComposed := composed_of_consume (fun _ _ _ _ => trivial) (fun _ _ hbare => hbare.kept)
    keepsTokens_consumeToken
  plain := fun _ _ hbare => hbare.keepsTokens
  invoke := respects_invoke hH (fun _ _ _ _ _ _ => ⟨trivial, trivial⟩)

/-- A token is put back only when an event of the bucket's timer has been dropped. -/
theorem grants_pushSrc {src : Option EvSource} (hG : Closed (KeepsTokens depth))
    (hqueue : ∀ force, KeepsTokens depth (pushEvt.pushQueue m force))
    (hsrc : w.evtSrc e = some src) :
    (pushSrc m e src).Grants (handler depth) tokenMonitor w g (fun _ _ _ => True) := by
  unfold pushSrc
  split
  next hinternal =>
    have hdrop : (act (.unrefEvt e)).Grants (handler depth) tokenMonitor w g
        (fun _ _ g' => g' = some src) :=
      grants_act fun _ => ⟨trivial, fun _ _ _ => hsrc⟩
    refine hdrop.bind (fun _ w₁ g₁ hg => ?_)
    split
    next htb =>
      have htimer : (some src).any (fun s => decide (TbTimer m s)) = true :=
        decide_eq_true ⟨hinternal, htb⟩
      refine grants_derefMod.bind ?_
      rintro x w' g' ⟨hx, rfl, rfl⟩
      split
      next hroom =>
        have hput : (act (.setMod m (.tbTokens (x.tbTokens + 1)))).Grants (handler depth)
            tokenMonitor w' g' (fun _ _ _ => True) :=
          grants_act fun _ =>
            ⟨⟨x, hx, .inr ⟨hg ▸ htimer, rfl, by omega⟩⟩, fun _ _ _ => trivial⟩
        exact hput.bind (fun _ _ _ _ => hqueue _ () _ _ trivial)
      next => exact hqueue _ () _ _ trivial
    next => exact hqueue _ () _ _ trivial
  next =>
    refine (keepsTokens_enqueueBatch () w g trivial).bind (fun _ w' g' _ => ?_)
    cases src with
    | none => exact hqueue false () w' g' trivial
    | some s =>
        have huserptr : KeepsTokens depth (do
            act (.setEvtUserdata e s.userptr)
            if hasFlag s.flags M_SRC_PRIO_HIGH then pushEvt.pushQueue m true
            else if hasFlag s.flags M_SRC_PRIO_LOW then return ()
            else pushEvt.pushQueue m false) := by
          refine hG.bind (hG.plain _ trivial trivial) (fun _ => ?_)
          refine Closed.ite (fun _ => hqueue _) (fun _ => ?_)
          exact Closed.ite (fun _ => hG.pure _) (fun _ => hqueue _)
        exact huserptr () w' g' trivial

theorem keepsTokens_pushEvt (hG : Closed (KeepsTokens depth))
    (hcb : ∀ m evts, KeepsTokens depth (callPubsubCb m evts)) :
    KeepsTokens depth (pushEvt m e) := by
  have hqueue : ∀ force, KeepsTokens depth (pushEvt.pushQueue m force) := fun _ =>
    hG.pushQueue (hG.bind keepsTokens_takeBatch (hcb m))
  exact respects_pushEvt (fun _ _ _ _ => trivial) (Op.Bare.kept trivial)
    (fun _ _ _ _ _ hsrc => grants_pushSrc hG hqueue hsrc)

end Procedures

section Runs

variable {depth : ℕ}

theorem maintains_tokens (depth : ℕ) : (machine.handler depth).Maintains tokenMonitor
    (fun (_ : Unit) _ _ => True) (fun _ _ _ _ => True) := by
  apply Machine.maintains
  · exact fun _ _ _ _ _ => trivial
  · intro depth hH
    have hG : Closed (KeepsTokens depth) := closed_keepsTokens hH
    have hnotify : ∀ h, KeepsTokens depth (notify h) := fun h =>
      respects_notify hH (fun _ _ _ _ _ => ⟨trivial, trivial⟩)
    have hparts := OfInner.of_bare hG (fun _ ho => ho.keepsTokens) hnotify
      (fun hcb _ _ => keepsTokens_pushEvt hG hcb)
    exact fun i call w g h => Parts.body hG (hparts.parts hG) call i w g h

/-- In every run, tokens are only taken where they are looked for, and only put back for
events of the bucket's timer. -/
theorem along_tokenStep (depth : ℕ) (calls : List Call) (w : World) :
    Along droppedNext TokenStep none (machine.runCalls depth calls w).steps :=
  ((maintains_tokens depth).runCalls () calls trivial
    (along_of_forall (fun _ _ _ => trivial))).1

end Runs

/-! ## One step -/

section Step

variable {m burst : ℕ} {g : Option (Option EvSource)} {step : Step LibLang World} {t w : World}
  {o : Op} {x x' : Mod}

/-- No other operation changes a bucket. -/
theorem bucket_of_onMod (h : o.OnMod m x x') (hset : ∀ tokens, o ≠ .setMod m (.tbTokens tokens))
    (hfill : ∀ rate burst tokens timer, o ≠ .setMod m (.tb rate burst tokens timer)) :
    x'.tbTokens = x.tbTokens ∧ x'.tbBurst = x.tbBurst := by
  cases o with
  | setMod p field =>
      obtain rfl : x' = _ := h
      split
      next hpm =>
        subst hpm
        cases field with
        | tbTokens tokens => exact absurd rfl (hset tokens)
        | tb rate burst tokens timer => exact absurd rfl (hfill rate burst tokens timer)
        | _ => exact ⟨rfl, rfl⟩
      next => exact ⟨rfl, rfl⟩
  | clear p queue =>
      obtain rfl : x' = _ := h
      split
      next => cases queue <;> exact ⟨rfl, rfl⟩
      next => exact ⟨rfl, rfl⟩
  | markRunning | markStopped | markZombie | enqueueBatch | takeBatch | stash | unstash | bind =>
      obtain rfl : x' = _ := h
      split <;> exact ⟨rfl, rfl⟩
  | subscriptionsPut | subscriptionsRemove | addSrc | bstRemove | bstItrRemove =>
      obtain ⟨-, _, rfl⟩ := h
      exact ⟨rfl, rfl⟩
  | pipe =>
      obtain ⟨-, _, _, rfl⟩ := h
      exact ⟨rfl, rfl⟩
  | _ =>
      obtain rfl : x' = x := h
      exact ⟨rfl, rfl⟩

end Step

section Leads

variable {m burst : ℕ} {g : Option (Option EvSource)} {step : Step LibLang World} {t w : World}
  {x x' : Mod}

/-- A module after a step was there before it, or the step has made it. -/
theorem mod_of_leads (hlead : machine.Leads step t) (hx' : modAt t.heap m = some x') :
    (∃ x, modAt step.before.heap m = some x ∧
        (x' = x ∨ ∃ o, step.act = .op o ∧ o.OnMod m x x')) ∨
      m = step.before.heap.length ∧ ∃ c name flags hook,
        step.act = .op (.newMod c name flags hook) ∧ x'.Registered c name flags hook := by
  obtain ⟨act, w⟩ := step
  cases act with
  | op o =>
      rcases hlead with ⟨r, hexec⟩ | ⟨-, hsame⟩
      · rcases (Op.effect hexec).mods m x' hx' with ⟨x, hx, hon⟩ |
          ⟨hm, c, name, flags, hook, ho, hnew⟩
        · exact .inl ⟨x, hx, .inr ⟨o, rfl, hon⟩⟩
        · exact .inr ⟨hm, c, name, flags, hook, congrArg Act.op ho, hnew⟩
      · exact .inl ⟨x', hsame ▸ hx', .inl rfl⟩
  | hook h =>
      rcases hlead with hreact | hsame
      · refine .inl ⟨x', ?_, .inl rfl⟩
        rwa [← World.react_heap h w, ← show t = (World.react h w).2.2 from hreact]
      · exact .inl ⟨x', hsame ▸ hx', .inl rfl⟩
  | call c => exact .inl ⟨x', (show t = w from hlead) ▸ hx', .inl rfl⟩
  | halt => exact .inl ⟨x', (show t = w from hlead) ▸ hx', .inl rfl⟩

theorem tokensLeft_eq (hx : modAt w.heap m = some x) : tokensLeft w m = x.tbTokens := by
  simp [tokensLeft, hx]

theorem withinBurst_of_leads (hw : WithinBurst step.before) (htoken : TokenStep g step)
    (hlead : machine.Leads step t) : WithinBurst t := by
  intro m x' hx'
  rcases mod_of_leads hlead hx' with ⟨x, hx, rfl | ⟨o, hact, hon⟩⟩ | ⟨-, _, _, _, _, -, hnew⟩
  · exact hw m x' hx
  · have hbefore := hw m x hx
    by_cases hset : ∃ tokens, o = .setMod m (.tbTokens tokens)
    · obtain ⟨tokens, rfl⟩ := hset
      rw [TokenStep, hact] at htoken
      obtain ⟨y, hy, htokens⟩ := htoken
      obtain rfl := Option.some.inj (hx.symm.trans hy)
      rw [Op.OnMod, if_pos rfl] at hon
      rw [hon]
      show tokens ≤ x.tbBurst
      omega
    · by_cases hfill : ∃ rate burst tokens timer, o = .setMod m (.tb rate burst tokens timer)
      · obtain ⟨rate, burst, tokens, timer, rfl⟩ := hfill
        rw [TokenStep, hact] at htoken
        rw [Op.OnMod, if_pos rfl] at hon
        rw [hon]
        exact le_of_eq htoken
      · obtain ⟨htokens, hburst⟩ := bucket_of_onMod hon (fun tokens h => hset ⟨tokens, h⟩)
          (fun rate burst tokens timer h => hfill ⟨rate, burst, tokens, timer, h⟩)
        rw [htokens, hburst]
        exact hbefore
  · obtain ⟨state, -, rfl⟩ := hnew
    exact le_rfl

theorem modAt_of_setMod {field : ModField} (hact : step.act = .op (.setMod m field))
    (hx : modAt step.before.heap m = some x) (hlead : machine.Leads step t) :
    modAt t.heap m = some (field.set x) := by
  obtain ⟨act, w⟩ := step
  subst hact
  have hx : modAt w.heap m = some x := hx
  have hexec : (Op.setMod m field).exec w =
      some ((), { w with heap := modify w.heap m (Obj.mapMod fun x => field.set x) }) := by
    simp only [Op.exec, World.setMod, hx, Option.bind_eq_bind, Option.bind_some, Option.map_some]
  rcases hlead with ⟨r, hsome⟩ | ⟨hnone, -⟩
  · obtain rfl := (Prod.mk.inj (Option.some.inj (hexec.symm.trans hsome))).2
    rw [modAt_modify_mod, if_pos rfl, hx]
    rfl
  · cases hexec.symm.trans hnone

/-- What a step takes and puts back is what the module has less, and more. -/
theorem tokensLeft_of_leads (htoken : TokenStep g step)
    (hfill : ∀ burst, ¬ Fills m burst step) (hlead : machine.Leads step t) :
    tokensLeft t m + (takesToken m step).toNat ≤
      tokensLeft step.before m + (putsToken m step).toNat := by
  by_cases hset : ∃ tokens, step.act = .op (.setMod m (.tbTokens tokens))
  · obtain ⟨tokens, hact⟩ := hset
    rw [TokenStep, hact] at htoken
    obtain ⟨x, hx, htokens⟩ := htoken
    have hbefore := tokensLeft_eq hx
    have hafter : tokensLeft t m = tokens := tokensLeft_eq (modAt_of_setMod hact hx hlead)
    have htakes :
        (takesToken m step).toNat = if tokens < tokensLeft step.before m then 1 else 0 := by
      simp only [takesToken, hact, true_and]
      split <;> simp_all
    have hputs : (putsToken m step).toNat = if tokensLeft step.before m < tokens then 1 else 0 := by
      simp only [putsToken, hact, true_and]
      split <;> simp_all
    rw [htakes, hputs, hafter, hbefore]
    split <;> split <;> omega
  · have hother : ∀ tokens, step.act ≠ .op (.setMod m (.tbTokens tokens)) :=
      fun tokens h => hset ⟨tokens, h⟩
    have htakes : takesToken m step = false := by
      unfold takesToken
      split
      next p tokens hact =>
        have hpm : p ≠ m := fun h => hother tokens (h ▸ hact)
        simp [hpm]
      next => rfl
    rw [htakes]
    have hafter : tokensLeft t m ≤ tokensLeft step.before m := by
      cases hx' : modAt t.heap m with
      | none => simp [tokensLeft, hx']
      | some x' =>
          rw [tokensLeft_eq hx']
          rcases mod_of_leads hlead hx' with ⟨x, hx, rfl | ⟨o, hact, hon⟩⟩ |
            ⟨hm, _, _, _, _, hact, -⟩
          · rw [tokensLeft_eq hx]
          · have hsame := bucket_of_onMod hon (fun tokens h => hother tokens (h ▸ hact))
              (fun rate burst tokens timer h => hfill burst (by
                rw [Fills, hact, h]
                exact ⟨rfl, rfl⟩))
            rw [tokensLeft_eq hx, hsame.1]
          · refine absurd ?_ (hfill UINT64_MAX)
            rw [Fills, hact]
            exact ⟨hm, rfl⟩
    simp only [Bool.toNat_false]
    omega

/-- A bucket that is made or set is full. -/
theorem tokensLeft_of_fills (htoken : TokenStep g step) (hfill : Fills m burst step)
    (hlead : machine.Leads step t) : tokensLeft t m ≤ burst := by
  cases hx' : modAt t.heap m with
  | none => simp [tokensLeft, hx']
  | some x' =>
      rw [tokensLeft_eq hx']
      unfold Fills at hfill
      split at hfill
      next p rate burst' tokens timer hact =>
        obtain ⟨rfl, rfl⟩ := hfill
        rw [TokenStep, hact] at htoken
        obtain rfl : tokens = burst' := htoken
        rcases mod_of_leads hlead hx' with ⟨x, hx, -⟩ | ⟨-, _, _, _, _, hother, -⟩
        · obtain rfl := Option.some.inj (hx'.symm.trans (modAt_of_setMod hact hx hlead))
          exact le_rfl
        · cases hact.symm.trans hother
      next hact =>
        obtain ⟨rfl, rfl⟩ := hfill
        rcases mod_of_leads hlead hx' with ⟨x, hx, -⟩ | ⟨-, _, _, _, _, -, state, -, rfl⟩
        · exact absurd rfl (World.ne_length hx)
        · exact le_rfl
      next => exact hfill.elim

end Leads

/-! ## The account -/

section Account

variable {m burst : ℕ} {g : Option (Option EvSource)} {steps : List (Step LibLang World)}

/-- Each token that is put back was for an event. -/
theorem countP_putsToken_le (h : Along droppedNext TokenStep g steps) :
    steps.countP (putsToken m) ≤
      steps.countP (isRefillEvent m) + (g.any (TbTimer m)).toNat := by
  induction steps generalizing g with
  | nil => simp
  | cons step steps ih =>
      obtain ⟨hstep, hrest⟩ := h
      have hone : (putsToken m step).toNat + ((droppedNext g step).any (TbTimer m)).toNat ≤
          (isRefillEvent m step).toNat + (g.any (TbTimer m)).toNat := by
        obtain ⟨act, w⟩ := step
        cases act with
        | op o =>
            cases o with
            | get => simp [putsToken, droppedNext, isRefillEvent]
            | unrefEvt e => simp [putsToken, droppedNext, isRefillEvent]
            | setMod p field =>
                cases field with
                | tbTokens tokens =>
                    obtain ⟨x, hx, hcases⟩ := hstep
                    by_cases hput : putsToken m ⟨.op (.setMod p (.tbTokens tokens)), w⟩
                    · obtain ⟨rfl, hmore⟩ : p = m ∧ tokensLeft w m < tokens := by
                        simpa [putsToken] using hput
                      rw [tokensLeft_eq hx] at hmore
                      have hdropped := (hcases.resolve_left (by omega)).1
                      simp [hput, hdropped, droppedNext]
                    · simp [hput, droppedNext]
                | _ => simp [putsToken, droppedNext]
            | _ => simp [putsToken, droppedNext]
        | _ => simp [putsToken, droppedNext]
      have := ih hrest
      rw [countP_cons_toNat, countP_cons_toNat]
      omega

theorem TokenStep.oneToken {step : Step LibLang World} (h : TokenStep g step) : OneToken step := by
  unfold TokenStep at h
  unfold OneToken
  split
  next m tokens hact =>
    rw [hact] at h
    obtain ⟨x, hx, htake | ⟨-, hput⟩⟩ := h
    · exact ⟨x, hx, .inl htake⟩
    · exact ⟨x, hx, .inr hput⟩
  next => trivial

/-- Since its bucket was filled, a module has spent no more than that and what events have
put back. -/
theorem countP_takesToken_le {s u : World} {fill : Step LibLang World}
    {before since after : List (Step LibLang World)}
    (hchain : machine.Chain s (before ++ fill :: (since ++ after)) u)
    (halong : Along droppedNext TokenStep g (before ++ fill :: (since ++ after)))
    (hfill : Fills m burst fill) (hsince : ∀ step ∈ since, ∀ b, ¬ Fills m b step) :
    since.countP (takesToken m) ≤ burst + since.countP (isRefillEvent m) := by
  obtain ⟨t, -, hchain⟩ := hchain.split
  obtain ⟨-, htoken, halong⟩ := along_append.mp halong
  obtain ⟨halong, -⟩ := along_append.mp halong
  cases hchain with
  | @cons _ _ w _ hlead hrest =>
      obtain ⟨v, hpart, -⟩ := hrest.split
      have hspent : tokensLeft v m + since.countP (takesToken m) ≤
          tokensLeft w m + since.countP (putsToken m) := by
        apply hpart.takes_le (φ := fun w => tokensLeft w m) (I := fun _ => True) trivial
        intro step hstep t _ hlead
        obtain ⟨g', htoken⟩ := halong.exists_of_mem hstep
        exact ⟨trivial, tokensLeft_of_leads htoken (hsince step hstep) hlead⟩
      have hfull := tokensLeft_of_fills htoken hfill hlead
      have hputs := @countP_putsToken_le m _ _ halong
      have hnone : droppedNext (before.foldl droppedNext g) fill = none := by
        unfold Fills at hfill
        unfold droppedNext
        split at hfill
        next hact => rw [hact]
        next hact => rw [hact]
        next => exact hfill.elim
      rw [hnone] at hputs
      simp only [Option.any_none, Bool.toNat_false] at hputs
      omega

end Account

/-- The tokens of all modules in a run. -/
structure TokensAccounted (out : Out LibLang World Unit) : Prop where
  within : ∀ step ∈ out.steps, WithinBurst step.before
  withinEnd : WithinBurst out.state
  one : ∀ step ∈ out.steps, OneToken step
  spent : ∀ (m burst : ℕ) (before since after : List (Step LibLang World))
    (fill : Step LibLang World), out.steps = before ++ fill :: (since ++ after) →
    Fills m burst fill → (∀ step ∈ since, ∀ b, ¬ Fills m b step) →
    since.countP (takesToken m) ≤ burst + since.countP (isRefillEvent m)

/-- `M_MOD_CONSUME_TOKEN` refuses when there is no token, and else takes one and goes on. -/
def PaysOne : Prop :=
  ∀ (depth m : ℕ) (w : World) (x : Mod) (rest : Lm ℤ), modAt w.heap m = some x →
    (x.tbTokens = 0 → (consumeToken m rest).Ends (handler depth) w (-EAGAIN) w) ∧
      (x.tbTokens ≠ 0 → GoesOn depth (consumeToken m rest) w rest (w.takeToken m x))

theorem paysOne : PaysOne := by
  intro depth m w x rest hx
  refine ⟨fun htoken => ?_, fun htoken => consumeToken_goesOn hx htoken⟩
  have hgoes : GoesOn depth (consumeToken m rest) w (pure (-EAGAIN)) w := by
    apply (derefMod_goesOn hx).trans
    rw [if_pos htoken]
    exact .refl
  exact hgoes.ends_iff.mpr (Prog.ends_pure.mpr ⟨rfl, rfl⟩)

/-- In every run the tokens of every module are accounted for, and every call pays for what
it costs. -/
theorem tokensAccounted_runCalls (host : Host) (script : List Reaction) (polls : List PollAnswer)
    (faults : List ℤ) (depth : ℕ) (calls : List Call) :
    TokensAccounted (machine.runCalls depth calls (World.initial host script polls faults)) ∧
      PaysOne := by
  have hchain := machine.chain_runCalls depth calls (World.initial host script polls faults)
  have halong := along_tokenStep depth calls (World.initial host script polls faults)
  have hinitial : WithinBurst (World.initial host script polls faults) := by
    intro m x hx
    exact absurd (modAt_lt_length hx) (by simp [World.initial])
  have hwithin := hchain.fold (I := fun w _ => WithinBurst w) halong hinitial
    (fun g step t hw htoken hlead => withinBurst_of_leads hw htoken hlead)
  refine ⟨⟨?_, hwithin.1, ?_, ?_⟩, paysOne⟩
  · exact along_iff_forall.mp hwithin.2
  · intro step hstep
    obtain ⟨g, htoken⟩ := halong.exists_of_mem hstep
    exact htoken.oneToken
  · intro m burst before since after fill hsteps hfill hsince
    rw [hsteps] at hchain halong
    exact countP_takesToken_le hchain halong hfill hsince

end Libmodule
