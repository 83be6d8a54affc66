import Libmodule.Evolution
import Libmodule.OpEffects
import Libmodule.SysSteps

/-!
# The pipes of modules

A running module is told messages through a pipe of its own.  Descriptors are
only ever added or closed, so no two modules can come to write to one pipe.
-/

namespace Libmodule

open RefHeap Reentrant

/-! ## Descriptors -/

namespace Sys

/-- Every write end leads to a pipe. -/
def Bounded (s : Sys) : Prop :=
  ∀ fd p : ℕ, s.files[fd]? = some (File.pipeWrite p) → p < s.pipes.length

/-- Descriptors are added or closed, and pipes added. -/
structure Grows (s s' : Sys) : Prop where
  files : s.files.length ≤ s'.files.length
  pipes : s.pipes.length ≤ s'.pipes.length
  kept : ∀ fd f, fd < s.files.length → s'.files[fd]? = some f → f ≠ .closed →
    s.files[fd]? = some f
  bounded : s.Bounded → s'.Bounded

namespace Grows

variable {s s₁ s₂ : Sys}

theorem refl (s : Sys) : Grows s s where
  files := le_rfl
  pipes := le_rfl
  kept := fun _ _ _ hf _ => hf
  bounded := id

theorem trans (h₁ : Grows s s₁) (h₂ : Grows s₁ s₂) : Grows s s₂ where
  files := h₁.files.trans h₂.files
  pipes := h₁.pipes.trans h₂.pipes
  kept := fun fd f hfd hf hopen =>
    h₁.kept fd f hfd (h₂.kept fd f (hfd.trans_le h₁.files) hf hopen) hopen
  bounded := h₂.bounded ∘ h₁.bounded

theorem of_eq (hfiles : s₁.files = s.files) (hpipes : s₁.pipes.length = s.pipes.length) :
    Grows s s₁ where
  files := by rw [hfiles]
  pipes := by rw [hpipes]
  kept := fun _ _ _ hf _ => by rwa [hfiles] at hf
  bounded := by
    intro hs fd p hp
    rw [hpipes]
    rw [hfiles] at hp
    exact hs fd p hp

/-- One more descriptor, for what is open already or for something else than a pipe. -/
theorem append {f : File}
    (hf : ∀ p, f = .pipeWrite p → ∃ fd : ℕ, s.files[fd]? = some (File.pipeWrite p)) :
    Grows s { s with files := s.files ++ [f] } where
  files := by simp
  pipes := le_rfl
  kept := fun fd f hfd hf _ => by rwa [List.getElem?_append_left hfd] at hf
  bounded := by
    intro hs fd p hp
    rw [List.getElem?_append] at hp
    split at hp
    next => exact hs fd p hp
    next =>
      have hmem : File.pipeWrite p ∈ [f] := List.mem_of_getElem? hp
      obtain ⟨old, hold⟩ := hf p (List.mem_singleton.mp hmem).symm
      exact hs old p hold

end Grows

theorem file_eq {s : Sys} {fd : Option ℕ} {p : ℕ} :
    s.file fd = .pipeWrite p ↔ ∃ n, fd = some n ∧ s.files[n]? = some (.pipeWrite p) := by
  unfold file
  cases fd with
  | none => simp
  | some n =>
      cases hfile : s.files[n]? with
      | none => simp [hfile]
      | some f => simp [hfile]

theorem Step.grows {sent : ℕ → Prop} {s s' : Sys} (h : Step sent s s') : Grows s s' := by
  cases h with
  | errno | fault | epoll | freedData | freedUserptr => exact .of_eq rfl rfl
  | receive | send => exact .of_eq rfl (by simp)
  | close fd =>
      constructor
      · simp
      · exact le_rfl
      · intro n f _ hf hopen
        rw [List.getElem?_set] at hf
        split at hf
        next =>
          split at hf
          next =>
            cases hf
            exact absurd rfl hopen
          next => cases hf
        next => exact hf
      · intro hs n p hp
        rw [List.getElem?_set] at hp
        split at hp
        next => split at hp <;> cases hp
        next => exact hs n p hp
  | pipe =>
      constructor
      · simp
      · simp
      · intro n f hn hf _
        rwa [List.getElem?_append_left hn] at hf
      · intro hs n p hp
        show p < (s.pipes ++ [[]]).length
        rw [List.getElem?_append] at hp
        rw [List.length_append, List.length_singleton]
        split at hp
        next => exact (hs n p hp).trans (Nat.lt_succ_self _)
        next =>
          have hmem := List.mem_of_getElem? hp
          simp only [List.mem_cons, List.not_mem_nil, or_false, reduceCtorEq, false_or,
            File.pipeWrite.injEq] at hmem
          omega
  | dup fd =>
      refine .append ?_
      intro p hp
      obtain ⟨n, -, hn⟩ := file_eq.mp hp
      exact ⟨n, hn⟩
  | create => exact .append nofun

theorem Steps.grows {sent : ℕ → Prop} {s s' : Sys} (h : Steps sent s s') : Grows s s' := by
  induction h with
  | refl => exact .refl s
  | tail _ hstep ih => exact ih.trans hstep.grows

/-- Every message in a pipe has an address below `n`. -/
def Contents (n : ℕ) (s : Sys) : Prop :=
  ∀ p : ℕ, ∀ g ∈ (s.pipes[p]?).getD [], g < n

theorem Contents.of_eq {n : ℕ} {s s' : Sys} (hs : s.Contents n) (hpipes : s'.pipes = s.pipes) :
    s'.Contents n := by
  intro p g hg
  rw [hpipes] at hg
  exact hs p g hg

theorem Contents.set {n : ℕ} {s s' : Sys} {p : ℕ} {msgs : List ℕ} (hs : s.Contents n)
    (hmsgs : ∀ g ∈ msgs, g < n) (hpipes : s'.pipes = s.pipes.set p msgs) : s'.Contents n := by
  intro q g hg
  rw [hpipes, List.getElem?_set] at hg
  split at hg
  next =>
    split at hg
    next => exact hmsgs g hg
    next => cases hg
  next => exact hs q g hg

theorem Step.contents {n : ℕ} {s s' : Sys} (h : Step (· < n) s s') (hs : s.Contents n) :
    s'.Contents n := by
  cases h with
  | errno | fault | close | dup | create | epoll | freedData | freedUserptr =>
      exact hs.of_eq rfl
  | pipe =>
      intro p g hg
      simp only [List.getElem?_append] at hg
      split at hg
      next => exact hs p g hg
      next =>
        cases hidx : p - s.pipes.length with
        | zero => simp [hidx] at hg
        | succ i => simp [hidx] at hg
  | receive p msgs hmsgs => exact hs.set (fun g hg => hs p g (hmsgs hg)) rfl
  | send p g hlt =>
      refine hs.set ?_ rfl
      intro g' hg'
      rcases List.mem_append.mp hg' with hold | hnew
      · exact hs p g' hold
      · exact List.mem_singleton.mp hnew ▸ hlt

theorem Steps.contents {n k : ℕ} {s s' : Sys} (h : Steps (· < n) s s') (hk : k ≤ n)
    (hs : s.Contents k) : s'.Contents n := by
  induction h with
  | refl => exact fun p g hg => (hs p g hg).trans_le hk
  | tail _ hstep ih => exact hstep.contents ih

end Sys

/-! ## One pipe for each module -/

namespace World

/-- The pipe that a module is told messages through. -/
def pipeTo (w : World) (m : ℕ) : Option ℕ :=
  match (modAt w.heap m).map (fun x => w.sys.file x.pubsubFd1) with
  | some (.pipeWrite p) => some p
  | _ => none

theorem pipeTo_eq_some {w : World} {m p : ℕ} :
    w.pipeTo m = some p ↔
      ∃ x, modAt w.heap m = some x ∧ w.sys.file x.pubsubFd1 = .pipeWrite p := by
  unfold pipeTo
  cases modAt w.heap m with
  | none => simp
  | some x =>
      cases hfile : w.sys.file x.pubsubFd1 <;> simp [hfile]

/-- The messages in the pipe of a module. -/
def mailbox (w : World) (m : ℕ) : List ℕ :=
  ((w.pipeTo m).bind (fun p => w.sys.pipes[p]?)).getD []

end World

/-- No two modules write to one pipe. -/
structure Pipes (w : World) : Prop where
  bounded : w.sys.Bounded
  contents : w.sys.Contents w.heap.length
  fds : ∀ m x fd, modAt w.heap m = some x → x.pubsubFd1 = some fd → fd < w.sys.files.length
  apart : ∀ m n p, w.pipeTo m = some p → w.pipeTo n = some p → m = n

section Pipes

variable {w w' : World} {m p : ℕ} {o : Op} {x x' : Mod}

/-- A descriptor of a module changes only where a pipe is made or forgotten. -/
theorem Op.OnMod.pubsubFd1 (h : o.OnMod m x x') (ho : o ≠ .pipe m) :
    x'.pubsubFd1 = none ∨ x'.pubsubFd1 = x.pubsubFd1 := by
  cases o with
  | setMod p field =>
      obtain rfl : x' = _ := h
      split
      next => cases field <;> first | exact .inr rfl | exact .inl rfl
      next => exact .inr rfl
  | clear p queue =>
      obtain rfl : x' = _ := h
      split
      next => cases queue <;> exact .inr rfl
      next => exact .inr rfl
  | markRunning | markStopped | markZombie | enqueueBatch | takeBatch | stash | unstash | bind =>
      obtain rfl : x' = _ := h
      right
      split <;> rfl
  | subscriptionsPut | subscriptionsRemove | addSrc | bstRemove | bstItrRemove =>
      obtain ⟨-, _, rfl⟩ := h
      exact .inr rfl
  | pipe p =>
      obtain ⟨hne, -⟩ := h
      rw [hne (by rintro rfl; exact ho rfl)]
      exact .inr rfl
  | _ =>
      obtain rfl : x' = x := h
      exact .inr rfl

theorem Pipes.lt (hw : Pipes w) (hp : w.pipeTo m = some p) : p < w.sys.pipes.length := by
  obtain ⟨x, -, hfile⟩ := World.pipeTo_eq_some.mp hp
  obtain ⟨fd, -, hfd⟩ := Sys.file_eq.mp hfile
  exact hw.bounded fd p hfd

/-- A pipe that is there was the pipe of the module before, if its descriptor was. -/
theorem Pipes.pipeTo_before (hw : Pipes w) (hgrows : w.sys.Grows w'.sys)
    (hx : modAt w.heap m = some x) (hx' : modAt w'.heap m = some x')
    (hfd : x'.pubsubFd1 = none ∨ x'.pubsubFd1 = x.pubsubFd1) (hp : w'.pipeTo m = some p) :
    w.pipeTo m = some p := by
  obtain ⟨y, hy, hfile⟩ := World.pipeTo_eq_some.mp hp
  cases hx'.symm.trans hy
  obtain ⟨fd, hsome, hopen⟩ := Sys.file_eq.mp hfile
  rcases hfd with hnone | hsame
  · rw [hnone] at hsome
    cases hsome
  · rw [hsame] at hsome
    have hold := hgrows.kept fd _ (hw.fds m x fd hx hsome) hopen nofun
    exact World.pipeTo_eq_some.mpr ⟨x, hx, Sys.file_eq.mpr ⟨fd, hsome, hold⟩⟩

/-- What making a pipe does, unless it fails. -/
theorem World.pipe_cases {q : ℕ} {ret : ℤ} (h : w.pipe q = some (ret, w')) :
    w'.heap = w.heap ∧ w'.sys.files = w.sys.files ∧ w'.sys.pipes = w.sys.pipes ∨
    w'.heap = modify w.heap q (Obj.mapMod fun x =>
        { x with
          pubsubFd0 := some w.sys.files.length
          pubsubFd1 := some (w.sys.files.length + 1) }) ∧
      w'.sys.files =
        w.sys.files ++ [.pipeRead w.sys.pipes.length, .pipeWrite w.sys.pipes.length] ∧
      w'.sys.pipes = w.sys.pipes ++ [[]] := by
  unfold World.pipe at h
  simp only [Sys.pipe, Sys.fault_eq] at h
  split at h
  next sys heq =>
    split at heq
    next =>
      cases heq
      cases h
      exact .inl ⟨rfl, rfl, rfl⟩
    next => cases heq
  next fd0 fd1 sys heq =>
    split at heq
    next => cases heq
    next =>
      cases heq
      simp only [Option.bind_eq_bind, Option.bind_eq_some_iff, Option.some.injEq] at h
      obtain ⟨u, hset, h⟩ := h
      cases h
      obtain ⟨-, rfl⟩ := World.setMod_eq_some.mp hset
      exact .inr ⟨rfl, rfl, rfl⟩

theorem Pipes.pipe {q : ℕ} {ret : ℤ} (hw : Pipes w) (h : w.pipe q = some (ret, w')) :
    Pipes w' := by
  have hlength : w'.heap.length = w.heap.length := by
    rcases World.pipe_cases h with ⟨hheap, -⟩ | ⟨hheap, -⟩
    · rw [hheap]
    · rw [hheap, length_modify]
  have hcontents : w'.sys.Contents w'.heap.length :=
    (Op.steps (o := .pipe q) h).contents hlength.ge hw.contents
  have hbounded := (Op.steps (o := .pipe q) h).grows.bounded hw.bounded
  rcases World.pipe_cases h with ⟨hheap, hfiles, -⟩ | ⟨hheap, hfiles, -⟩
  · have hpipe : ∀ m, w'.pipeTo m = w.pipeTo m := by
      intro m
      simp only [World.pipeTo, Sys.file, hheap, hfiles]
    refine ⟨hbounded, hcontents, fun m x fd hx hfd => ?_, fun m n p hm hn => ?_⟩
    · rw [hheap] at hx
      rw [hfiles]
      exact hw.fds m x fd hx hfd
    · rw [hpipe] at hm hn
      exact hw.apart m n p hm hn
  · -- the pipe of `q` is new, those of the other modules are not
    have hpipe : ∀ m p, w'.pipeTo m = some p →
        m = q ∧ p = w.sys.pipes.length ∨ w.pipeTo m = some p := by
      intro m p hp
      obtain ⟨y, hy, hfile⟩ := World.pipeTo_eq_some.mp hp
      obtain ⟨fd, hsome, hopen⟩ := Sys.file_eq.mp hfile
      rw [hheap, modAt_modify_mod] at hy
      rw [hfiles] at hopen
      split at hy
      next hqm =>
        obtain ⟨z, -, rfl⟩ := Option.map_eq_some_iff.mp hy
        cases hsome
        simp at hopen
        exact .inl ⟨hqm.symm, hopen.symm⟩
      next hqm =>
        have hlt := hw.fds m y fd hy hsome
        rw [List.getElem?_append_left hlt] at hopen
        exact .inr (World.pipeTo_eq_some.mpr ⟨y, hy, Sys.file_eq.mpr ⟨fd, hsome, hopen⟩⟩)
    refine ⟨hbounded, hcontents, fun m y fd hy hsome => ?_, fun m n p hm hn => ?_⟩
    · rw [hheap, modAt_modify_mod] at hy
      rw [hfiles, List.length_append]
      split at hy
      next =>
        obtain ⟨z, -, rfl⟩ := Option.map_eq_some_iff.mp hy
        cases hsome
        simp
      next => exact (hw.fds m y fd hy hsome).trans_le (Nat.le_add_right _ _)
    · rcases hpipe m p hm with ⟨rfl, rfl⟩ | hm
      · rcases hpipe n _ hn with ⟨rfl, -⟩ | hn
        · rfl
        · exact absurd (hw.lt hn) (lt_irrefl _)
      · rcases hpipe n p hn with ⟨rfl, rfl⟩ | hn
        · exact absurd (hw.lt hm) (lt_irrefl _)
        · exact hw.apart m n p hm hn

theorem Pipes.exec {r : o.Resp} (hw : Pipes w) (hs : Settled w.heap)
    (h : o.exec w = some (r, w')) : Pipes w' := by
  by_cases hpipe : ∃ q, o = .pipe q
  · obtain ⟨q, rfl⟩ := hpipe
    exact hw.pipe h
  · have hgrows := (Op.steps h).grows
    have heffect := Op.effect h
    -- a module that has a descriptor had it before
    have hback : ∀ m x' fd, modAt w'.heap m = some x' → x'.pubsubFd1 = some fd →
        ∃ x, modAt w.heap m = some x ∧ x'.pubsubFd1 = x.pubsubFd1 := by
      intro m x' fd hx' hfd
      rcases heffect.mods m x' hx' with ⟨x, hx, hchange⟩ | ⟨-, _, _, _, _, -, _, -, rfl⟩
      · rcases hchange.pubsubFd1 (fun ho => hpipe ⟨m, ho⟩) with hnone | hsame
        · rw [hnone] at hfd
          cases hfd
        · exact ⟨x, hx, hsame⟩
      · cases hfd
    have hbefore : ∀ m p, w'.pipeTo m = some p → w.pipeTo m = some p := by
      intro m p hp
      obtain ⟨x', hx', hfile⟩ := World.pipeTo_eq_some.mp hp
      obtain ⟨fd, hsome, -⟩ := Sys.file_eq.mp hfile
      obtain ⟨x, hx, hsame⟩ := hback m x' fd hx' hsome
      exact hw.pipeTo_before hgrows hx hx' (.inr hsame) hp
    constructor
    · exact hgrows.bounded hw.bounded
    · exact (Op.steps h).contents (Op.evolves hs h).grows hw.contents
    · intro m x' fd hx' hfd
      obtain ⟨x, hx, hsame⟩ := hback m x' fd hx' hfd
      exact (hw.fds m x fd hx (hsame ▸ hfd)).trans_le hgrows.files
    · intro m n p hm hn
      exact hw.apart m n p (hbefore m p hm) (hbefore n p hn)

/-- In every state that the library reaches, the pipes of modules are apart. -/
theorem pipes_reached {host : Host} {script : List Reaction} {polls : List PollAnswer}
    {faults : List ℤ} (h : Later (World.initial host script polls faults) w) : Pipes w := by
  induction h with
  | refl =>
      have hempty : ∀ m, modAt (World.initial host script polls faults).heap m = none :=
        fun _ => rfl
      refine ⟨fun _ _ hp => ?_, fun p g hg => ?_, fun m x fd hx => ?_, fun m n p hm => ?_⟩
      · cases hp
      · simp [World.initial] at hg
      · rw [hempty] at hx
        cases hx
      · obtain ⟨x, hx, -⟩ := World.pipeTo_eq_some.mp hm
        rw [hempty] at hx
        cases hx
  | exec h hexec ih =>
      exact ih.exec (h.pays (settled_initial host script polls faults)).settled hexec
  | react _ hook ih =>
      unfold World.react
      split <;> exact ⟨ih.bounded, ih.contents, ih.fds, ih.apart⟩

end Pipes

end Libmodule
