import Libmodule.FuseFs

/-!
# The clients of a module

Every open file is in the list of its module and holds a reference on it.  A
run keeps this as long as no file is released whose client is gone or whose
module has no other reference, no loop stops while the files of a deregistered
module are open, and every client gets its place in the list.
-/

namespace Libmodule
namespace FuseFs

open CallRun

def clientsOf (s : FuseFs) (m : ℕ) : List ℕ := (s.privs m).getD []

/-- The references on a module: of the context, of users and of clients. -/
def holders (s : FuseFs) (m : ℕ) : ℕ :=
  (if m ∈ s.modules.map Prod.snd then 1 else 0) + s.held m + (s.clientsOf m).length

/-- The list of a module has its open files, each once, and the module of an open file is alive. -/
structure Tidy (s : FuseFs) : Prop where
  nodup : ∀ m, (s.clientsOf m).Nodup
  lists : ∀ m c, c ∈ s.clientsOf m ↔ c ∈ s.openFiles ∧ s.clients c = some m
  alive : ∀ c ∈ s.openFiles, ∃ m, s.clients c = some m ∧ s.mods m ≠ none

/-- A released file is open, with another reference on its module; a new client gets a node in
the list; at the end of a loop only modules of the context have clients. -/
def Safe (s : FuseFs) : FsCall → Prop
  | .fsRelease file => file ∈ s.fh → file ∈ s.openFiles ∧
      ∀ m x, s.clients file = some m → s.mods m = some x → 1 < x.refs
  | .fsOpen mem path => ∀ name e x, path = some name → s.find name = some e →
      s.mods e.2 = some x → mem.client = true → (x.fs = true ∨ mem.priv = true ∧ mem.list = true) →
        mem.node = true
  | .loopStop => ∀ m l, s.privs m = some l → m ∈ s.modules.map Prod.snd
  | _ => True

/-! ## The invariant -/

/-- A live module counts its references, and a freed one has none. -/
def ModOk (s : FuseFs) (m : ℕ) : Prop :=
  (s.mods m = none ∧ s.holders m = 0) ∨
    ∃ x, s.mods m = some x ∧ x.refs = s.holders m ∧ 0 < x.refs ∧ x.fs = (s.privs m).isSome ∧
      ∀ n, (n, m) ∈ s.modules ↔ x.zombie = false ∧ n = x.name

/-- The part of the invariant that a stop of the loop keeps at every module. -/
structure Core (s : FuseFs) : Prop where
  mods : ∀ m, s.ModOk m
  lists : ∀ m l, s.privs m = some l → l ≠ [] ∧ l.Nodup ∧ ∀ c ∈ l, s.clients c = some m
  listed : ∀ c m, s.clients c = some m → c ∈ s.clientsOf m
  keys : (s.modules.map Prod.fst).Nodup
  freshMod : ∀ m, s.nextMod ≤ m → s.mods m = none
  freshClient : ∀ c, s.nextClient ≤ c → s.clients c = none ∧ c ∉ s.fh

structure Inv (s : FuseFs) : Prop extends Core s where
  opened : ∀ c, c ∈ s.openFiles ↔ s.clients c ≠ none
  handles : s.openFiles ⊆ s.fh

section Invariant

variable {s s' : FuseFs} {m : ℕ}

theorem ModOk.congr (h : s.ModOk m) (hmods : s'.mods m = s.mods m) (hheld : s'.held m = s.held m)
    (hprivs : s'.privs m = s.privs m) (hmodules : ∀ n, (n, m) ∈ s'.modules ↔ (n, m) ∈ s.modules) :
    s'.ModOk m := by
  have hmem : m ∈ s'.modules.map Prod.snd ↔ m ∈ s.modules.map Prod.snd := by
    simp [hmodules]
  have hholders : s'.holders m = s.holders m := by
    simp only [holders, clientsOf, hprivs, hheld, hmem]
  rw [ModOk, hmods, hholders, hprivs]
  simp only [hmodules]
  exact h

theorem clientsOf_eq_nil (hlists : ∀ m l, s.privs m = some l → l ≠ []) :
    s.clientsOf m = [] ↔ s.privs m = none := by
  cases hprivs : s.privs m with
  | none => simp [clientsOf, hprivs]
  | some l => simpa [clientsOf, hprivs] using hlists m l hprivs

/-- A module with a reference is alive. -/
theorem ModOk.alive (h : s.ModOk m) (hpos : 0 < s.holders m) :
    ∃ x, s.mods m = some x ∧ x.refs = s.holders m ∧ x.fs = (s.privs m).isSome ∧
      ∀ n, (n, m) ∈ s.modules ↔ x.zombie = false ∧ n = x.name := by
  rcases h with ⟨-, hzero⟩ | ⟨x, hx, hrefs, -, hfs, hnames⟩
  · omega
  · exact ⟨x, hx, hrefs, hfs, hnames⟩

theorem ModOk.eq (h : s.ModOk m) {x : FsMod} (hx : s.mods m = some x) :
    x.refs = s.holders m ∧ 0 < x.refs ∧ x.fs = (s.privs m).isSome ∧
      ∀ n, (n, m) ∈ s.modules ↔ x.zombie = false ∧ n = x.name := by
  rcases h with ⟨hnone, -⟩ | ⟨y, hy, hrest⟩
  · rw [hnone] at hx
    cases hx
  · rw [hy] at hx
    cases hx
    exact hrest

theorem registered_of_mem {e : String × ℕ} (he : e ∈ s.modules) :
    e.2 ∈ s.modules.map Prod.snd := List.mem_map_of_mem he

theorem holders_pos_of_registered (h : m ∈ s.modules.map Prod.snd) : 0 < s.holders m := by
  simp only [holders, if_pos h]
  omega

theorem find_mem {name : String} {e : String × ℕ} (hfind : s.find name = some e) :
    e ∈ s.modules ∧ e.1 = name :=
  ⟨List.mem_of_find?_eq_some hfind, by simpa using List.find?_some hfind⟩

theorem Core.length_clientsOf (h : Core s) {c : ℕ} (hc : s.clients c = some m) :
    ∃ l, s.privs m = some l ∧ c ∈ l ∧ l.Nodup := by
  have hmem := h.listed c m hc
  cases hprivs : s.privs m with
  | none => simp [clientsOf, hprivs] at hmem
  | some l => exact ⟨l, rfl, by simpa [clientsOf, hprivs] using hmem, (h.lists m l hprivs).2.1⟩

theorem Inv.tidy (h : Inv s) : Tidy s := by
  refine ⟨fun m => ?_, fun m c => ⟨fun hc => ?_, fun hc => h.listed c m hc.2⟩, fun c hc => ?_⟩
  · cases hprivs : s.privs m with
    | none => simp [clientsOf, hprivs]
    | some l => simpa [clientsOf, hprivs] using (h.lists m l hprivs).2.1
  · cases hprivs : s.privs m with
    | none => simp [clientsOf, hprivs] at hc
    | some l =>
        have hclient := (h.lists m l hprivs).2.2 c (by simpa [clientsOf, hprivs] using hc)
        exact ⟨(h.opened c).mpr (by simp [hclient]), hclient⟩
  · obtain ⟨m, hm⟩ := Option.ne_none_iff_exists'.mp ((h.opened c).mp hc)
    obtain ⟨l, hl, hmem, -⟩ := h.length_clientsOf hm
    have hpos : 0 < s.holders m := by
      have hlen := List.length_pos_of_mem hmem
      simp only [holders, clientsOf, hl, Option.getD_some]
      omega
    obtain ⟨x, hx, -⟩ := (h.mods m).alive hpos
    exact ⟨m, hm, by simp [hx]⟩

end Invariant

/-! ## References -/

section References

variable {s s' : FuseFs} {m : ℕ} {x : FsMod}

/-- A reference goes, and with the last one the module. -/
theorem ModOk.unref
    (hmods : s'.mods m = if x.refs = 1 then none else some { x with refs := x.refs - 1 })
    (hholders : s'.holders m + 1 = x.refs) (hfs : x.fs = (s'.privs m).isSome)
    (hnames : ∀ n, (n, m) ∈ s'.modules ↔ x.zombie = false ∧ n = x.name) : s'.ModOk m := by
  by_cases hlast : x.refs = 1
  · rw [if_pos hlast] at hmods
    exact .inl ⟨hmods, by omega⟩
  · rw [if_neg hlast] at hmods
    exact .inr ⟨_, hmods, by simp only; omega, by simp only; omega, hfs, hnames⟩

theorem Core.ne_of_fresh (h : Core s) (hx : s.mods m = some x) {m' : ℕ} (hm' : s.nextMod ≤ m') :
    m' ≠ m := by
  rintro rfl
  have hnone := h.freshMod m' hm'
  rw [hx] at hnone
  cases hnone

theorem Core.find_of_mem (h : Core s) {e : String × ℕ} (he : e ∈ s.modules) :
    s.find e.1 = some e := by
  have hsome : (s.find e.1).isSome := by
    rw [find, List.find?_isSome]
    exact ⟨e, he, by simp⟩
  obtain ⟨e', he'⟩ := Option.isSome_iff_exists.mp hsome
  obtain ⟨hmem, hname⟩ := find_mem he'
  rw [he', List.inj_on_of_nodup_map h.keys hmem he hname]

theorem Inv.register (h : Inv s) (name : String) : Inv (s.mModRegister name).2 := by
  rw [mModRegister]
  split
  next => exact h
  next hnew =>
    have hnone := h.freshMod s.nextMod le_rfl
    have hholders : s.holders s.nextMod = 0 := by
      rcases h.mods s.nextMod with ⟨-, hzero⟩ | ⟨x, hx, -⟩
      · exact hzero
      · rw [hnone] at hx
        cases hx
    have hlist : s.clientsOf s.nextMod = [] := by
      rw [← List.length_eq_zero_iff]
      simp only [holders] at hholders
      omega
    have hprivs : s.privs s.nextMod = none :=
      (clientsOf_eq_nil fun m l hl => (h.lists m l hl).1).mp hlist
    have habsent : ∀ n, (n, s.nextMod) ∉ s.modules := by
      intro n hmem
      have hpos := holders_pos_of_registered (registered_of_mem hmem)
      simp only at hpos
      omega
    refine ⟨⟨fun m => ?_, h.lists, h.listed, ?_, fun m hm => ?_, h.freshClient⟩, h.opened,
      h.handles⟩
    · by_cases heq : m = s.nextMod
      · subst heq
        refine .inr ⟨{ refs := 2, name := name }, by simp, ?_, by simp, by simp [hprivs], ?_⟩
        · simp [holders, clientsOf, hprivs]
        · intro n
          simp [habsent n]
      · refine (h.mods m).congr ?_ ?_ rfl ?_
        · exact Function.update_of_ne heq _ _
        · exact Function.update_of_ne heq _ _
        · intro n
          simp [heq]
    · have hkey : name ∉ s.modules.map Prod.fst := by
        intro hmem
        obtain ⟨e, he, rfl⟩ := List.mem_map.mp hmem
        rw [h.find_of_mem he] at hnew
        exact hnew rfl
      rw [List.map_append, List.nodup_append]
      refine ⟨h.keys, by simp, ?_⟩
      rintro a ha b hb rfl
      simp only [List.map_cons, List.map_nil, List.mem_singleton] at hb
      exact hkey (hb ▸ ha)
    · have hlt : s.nextMod + 1 ≤ m := hm
      have hne : m ≠ s.nextMod := by omega
      exact (Function.update_of_ne hne _ _).trans (h.freshMod m (by omega))

/-- A change of one module and of what is held on it, which leaves its name and its files. -/
theorem Inv.changeMod (h : Inv s) (hx : s.mods m ≠ none) (hmod : s'.ModOk m)
    (hmods : ∀ m', m' ≠ m → s'.mods m' = s.mods m') (hheld : ∀ m', m' ≠ m → s'.held m' = s.held m')
    (hmodules : ∀ m', m' ≠ m → ∀ n, (n, m') ∈ s'.modules ↔ (n, m') ∈ s.modules)
    (hkeys : (s'.modules.map Prod.fst).Nodup) (hprivs : s'.privs = s.privs)
    (hclients : s'.clients = s.clients) (hfh : s'.fh = s.fh) (hopen : s'.openFiles = s.openFiles)
    (hnextMod : s'.nextMod = s.nextMod) (hnextClient : s'.nextClient = s.nextClient) : Inv s' := by
  refine ⟨⟨fun m' => ?_, ?_, ?_, hkeys, fun m' hm' => ?_, ?_⟩, ?_, ?_⟩
  · by_cases heq : m' = m
    · exact heq ▸ hmod
    · exact (h.mods m').congr (hmods m' heq) (hheld m' heq) (by rw [hprivs]) (hmodules m' heq)
  · rw [hprivs, hclients]
    exact h.lists
  · simp only [clientsOf, hprivs, hclients]
    exact h.listed
  · rw [hnextMod] at hm'
    have hne : m' ≠ m := by
      rintro rfl
      exact hx (h.freshMod m' hm')
    rw [hmods m' hne]
    exact h.freshMod m' hm'
  · rw [hnextClient, hclients, hfh]
    exact h.freshClient
  · rw [hopen, hclients]
    exact h.opened
  · rw [hopen, hfh]
    exact h.handles

theorem Core.alive_of_held (h : Core s) (hheld : s.held m ≠ 0) :
    ∃ x, s.mods m = some x ∧ x.refs = s.holders m ∧ x.fs = (s.privs m).isSome ∧
      ∀ n, (n, m) ∈ s.modules ↔ x.zombie = false ∧ n = x.name :=
  (h.mods m).alive (by simp only [holders]; omega)

theorem Inv.ref (h : Inv s) (hheld : s.held m ≠ 0) :
    ∃ s', s.exec (.ref m) = some (0, s') ∧ Inv s' := by
  obtain ⟨x, hx, hrefs, hfs, hnames⟩ := h.alive_of_held hheld
  refine ⟨_, by simp [exec, hheld, FuseFs.ref, setMod, hx]; rfl, ?_⟩
  refine h.changeMod (m := m) (by simp [hx]) ?_ (fun m' hne => Function.update_of_ne hne _ _)
    (fun m' hne => Function.update_of_ne hne _ _) (fun _ _ _ => Iff.rfl) h.keys rfl rfl rfl rfl rfl
    rfl
  refine .inr ⟨{ x with refs := x.refs + 1 }, by simp, ?_, Nat.succ_pos _, hfs, hnames⟩
  simp only [holders, clientsOf, Function.update_self] at hrefs ⊢
  omega

theorem Inv.unref (h : Inv s) (hheld : s.held m ≠ 0) :
    ∃ s', s.exec (.unref m) = some (0, s') ∧ Inv s' := by
  obtain ⟨x, hx, hrefs, hfs, hnames⟩ := h.alive_of_held hheld
  refine ⟨_, by simp [exec, hheld, FuseFs.unref, hx]; rfl, ?_⟩
  refine h.changeMod (m := m) (by simp [hx]) (ModOk.unref (x := x) (by simp) ?_ hfs hnames)
    (fun m' hne => Function.update_of_ne hne _ _) (fun m' hne => Function.update_of_ne hne _ _)
    (fun _ _ _ => Iff.rfl) h.keys rfl rfl rfl rfl rfl rfl
  simp only [holders, clientsOf, Function.update_self] at hrefs ⊢
  omega

end References

/-! ## Deregistration -/

section Deregister

variable {s : FuseFs} {m : ℕ} {x : FsMod}

theorem fsCleanup_eq (h : Core s) {y : FsMod} (s₁ : FuseFs) (hy : s₁.mods m = some y)
    (hfs : y.fs = (s.privs m).isSome) (hprivs : s₁.privs = s.privs)
    (hclients : s₁.clients = s.clients) : s₁.fsCleanup m = some s₁ := by
  rw [fsCleanup, hy]
  cases hl : s.privs m with
  | none => simp [hfs, hl]
  | some l =>
      have hlive : l.mapM s.clients = some (l.map fun _ => m) := by
        have hmod := (h.lists m l hl).2.2
        clear hl
        induction l with
        | nil => rfl
        | cons c l ih =>
            rw [List.mapM_cons, hmod c List.mem_cons_self,
              ih fun c' hc' => hmod c' (List.mem_cons_of_mem _ hc')]
            rfl
      simp [hl, hprivs, hclients, hlive]

/-- A deregistration takes the module out of the context and drops the references of the context
and of the user. -/
theorem modDeregister_eq (h : Core s) (hx : s.mods m = some x) (hzombie : x.zombie = false)
    {fromUser : Bool} (huser : fromUser = true → s.held m ≠ 0) :
    ∃ s', s.modDeregister m fromUser = some (0, s') ∧
      s' = { s with
        mods := s'.mods
        modules := s.modules.erase (x.name, m)
        held := if fromUser then Function.update s.held m (s.held m - 1) else s.held } ∧
      (∀ m', m' ≠ m → s'.mods m' = s.mods m') ∧
      s'.mods m = if (x.refs - fromUser.toNat) = 1 then none
        else some { x with refs := x.refs - fromUser.toNat - 1, zombie := true } := by
  obtain ⟨hrefs, hpos, hfs, hnames⟩ := (h.mods m).eq hx
  have hentry : (x.name, m) ∈ s.modules := (hnames x.name).mpr ⟨hzombie, rfl⟩
  have hfind := h.find_of_mem hentry
  have hregistered := registered_of_mem hentry
  simp only at hfind hregistered
  have hlocked : s.ref m = some { s with
      mods := Function.update s.mods m (some { x with refs := x.refs + 1 }) } := by
    simp [FuseFs.ref, setMod, hx]
  have hremoved : FuseFs.unref { s with
        mods := Function.update s.mods m (some { x with refs := x.refs + 1 })
        modules := s.modules.erase (x.name, m) } m =
      some { s with
        mods := Function.update s.mods m (some x)
        modules := s.modules.erase (x.name, m) } := by
    simp [FuseFs.unref, hpos.ne']
  have hstopped : FuseFs.setMod { s with
        mods := Function.update s.mods m (some x)
        modules := s.modules.erase (x.name, m) } m (fun x => { x with zombie := true }) =
      some { s with
        mods := Function.update s.mods m (some { x with zombie := true })
        modules := s.modules.erase (x.name, m) } := by
    simp [setMod]
  have hcleaned := fsCleanup_eq (m := m) h { s with
      mods := Function.update s.mods m (some { x with zombie := true })
      modules := s.modules.erase (x.name, m) } (Function.update_self _ _ _) hfs rfl rfl
  have hfind' : find { s with
      mods := Function.update s.mods m (some { x with refs := x.refs + 1 }) } x.name =
        some (x.name, m) := hfind
  rw [modDeregister, hx]
  have hlive : ¬ x.zombie = true := by simp [hzombie]
  simp only [Option.bind_eq_bind, Option.bind_some, if_neg hlive, hlocked, hfind', hremoved,
    hstopped, hcleaned]
  cases fromUser with
  | false =>
      refine ⟨{ s with
        mods := Function.update s.mods m
          (if x.refs = 1 then none else some { x with refs := x.refs - 1, zombie := true })
        modules := s.modules.erase (x.name, m) }, ?_, rfl, ?_, ?_⟩
      · simp [FuseFs.unref]
      · exact fun m' hne => Function.update_of_ne hne _ _
      · simp
  | true =>
      have htwo : x.refs ≠ 1 := by
        have huser := huser rfl
        simp only [holders, if_pos hregistered] at hrefs
        omega
      refine ⟨{ s with
        mods := Function.update s.mods m
          (if x.refs - 1 = 1 then none else some { x with refs := x.refs - 1 - 1, zombie := true })
        modules := s.modules.erase (x.name, m)
        held := Function.update s.held m (s.held m - 1) }, ?_, rfl, ?_, ?_⟩
      · simp [FuseFs.unref, htwo]
      · exact fun m' hne => Function.update_of_ne hne _ _
      · simp

theorem Inv.deregister (h : Inv s) (m : ℕ) (fromUser : Bool) :
    ∃ ret s', s.exec (.deregister m fromUser) = some (ret, s') ∧ Inv s' := by
  rw [exec]
  split
  next => exact ⟨_, s, rfl, h⟩
  next hvalid =>
    obtain ⟨huser, hcontext⟩ := not_or.mp hvalid
    have huser : fromUser = true → s.held m ≠ 0 := fun hfrom hzero => huser ⟨hfrom, hzero⟩
    have hheld : 0 < s.holders m := by
      cases fromUser with
      | true =>
          have hheld := huser rfl
          simp only [holders]
          omega
      | false => exact holders_pos_of_registered (not_not.mp fun habsent => hcontext ⟨rfl, habsent⟩)
    obtain ⟨x, hx, hrefs, hfs, hnames⟩ := (h.mods m).alive hheld
    cases hzombie : x.zombie with
    | true => exact ⟨-EACCES, s, by simp [modDeregister, hx, hzombie], h⟩
    | false =>
        obtain ⟨s', hdereg, hs', hothers, hmod⟩ := modDeregister_eq h.toCore hx hzombie huser
        have hentry : (x.name, m) ∈ s.modules := (hnames x.name).mpr ⟨hzombie, rfl⟩
        have hregistered : m ∈ s.modules.map Prod.snd := registered_of_mem hentry
        have hnodup : s.modules.Nodup := List.Nodup.of_map _ h.keys
        have hmodules : s'.modules = s.modules.erase (x.name, m) := by rw [hs']
        have habsent : ∀ n, (n, m) ∉ s'.modules := by
          intro n hmem
          rw [hmodules] at hmem
          obtain ⟨hne, hmem⟩ := hnodup.mem_erase_iff.mp hmem
          exact hne (by rw [((hnames n).mp hmem).2])
        refine ⟨0, s', hdereg, ?_⟩
        refine h.changeMod (m := m) (by simp [hx]) ?_ hothers (fun m' hne => ?_)
          (fun m' hne n => ?_) ?_ (by rw [hs']) (by rw [hs']) (by rw [hs']) (by rw [hs'])
          (by rw [hs']) (by rw [hs'])
        · refine ModOk.unref (x := { x with refs := x.refs - fromUser.toNat, zombie := true }) hmod
            ?_ (by rw [hs']; exact hfs) (fun n => by simp [habsent n])
          have hunregistered : m ∉ s'.modules.map Prod.snd := by simpa using habsent
          have hheld' : s'.held m + fromUser.toNat = s.held m := by
            rw [hs']
            cases fromUser with
            | true =>
                have hpos := huser rfl
                simp only [if_true, Function.update_self, Bool.toNat_true]
                omega
            | false => simp
          have hclients : s'.clientsOf m = s.clientsOf m := by rw [hs']; rfl
          simp only [holders, hclients, if_neg hunregistered, if_pos hregistered] at hrefs ⊢
          omega
        · rw [hs']
          cases fromUser with
          | true => exact Function.update_of_ne hne _ _
          | false => rfl
        · rw [hmodules, hnodup.mem_erase_iff]
          simp [hne]
        · rw [hmodules]
          exact h.keys.sublist (List.erase_sublist.map _)

end Deregister

/-! ## Opening and releasing files -/

section Files

variable {s : FuseFs} {m : ℕ} {x : FsMod}

/-- `fs_open` of a module of the context fails for lack of memory, or adds a client, which is in
the list if there was memory for its node. -/
theorem fsOpen_cases (h : Core s) (mem : FsOpenMem) {name : String} {n : String}
    (hfind : s.find name = some (n, m)) :
    ∃ x, s.mods m = some x ∧
      if mem.client = true ∧ (x.fs = true ∨ mem.priv = true ∧ mem.list = true) then
        s.fsOpen mem (some name) = some (0, { s with
          mods := Function.update s.mods m (some { x with refs := x.refs + 1, fs := true })
          privs := Function.update s.privs m
            (some (if mem.node then s.nextClient :: s.clientsOf m else s.clientsOf m))
          clients := Function.update s.clients s.nextClient (some m)
          fh := insert s.nextClient s.fh
          openFiles := insert s.nextClient s.openFiles
          nextClient := s.nextClient + 1 })
      else s.fsOpen mem (some name) = some (-ENOMEM, s) := by
  have hregistered := registered_of_mem (find_mem hfind).1
  obtain ⟨x, hx, -, hfs, -⟩ := (h.mods m).alive (holders_pos_of_registered hregistered)
  refine ⟨x, hx, ?_⟩
  have hlist : s.clientList m x = some (s.clientsOf m) := by
    cases hl : s.privs m <;> simp [clientList, hfs, hl, clientsOf]
  rw [fsOpen]
  simp only [hfind, hx, Option.bind_eq_bind, Option.bind_some, Bool.and_eq_true, Bool.or_eq_true]
  split
  next => simp [hlist, setMod, hx]
  next => rfl

/-- The address of the next client is not one of a file or of a client. -/
theorem Inv.freshFile (h : Inv s) :
    s.nextClient ∉ s.openFiles ∧ ∀ m, s.nextClient ∉ s.clientsOf m := by
  have hnone := (h.freshClient s.nextClient le_rfl).1
  refine ⟨fun hopen => (h.opened _).mp hopen hnone, fun m hmem => ?_⟩
  have hopen := ((h.tidy.lists m s.nextClient).mp hmem).2
  rw [hnone] at hopen
  cases hopen

/-- A client in the list of its module, whose file is open. -/
theorem Inv.addClient (h : Inv s) (hx : s.mods m = some x) : Inv { s with
    mods := Function.update s.mods m (some { x with refs := x.refs + 1, fs := true })
    privs := Function.update s.privs m (some (s.nextClient :: s.clientsOf m))
    clients := Function.update s.clients s.nextClient (some m)
    fh := insert s.nextClient s.fh
    openFiles := insert s.nextClient s.openFiles
    nextClient := s.nextClient + 1 } := by
  obtain ⟨hclosed, hunlisted⟩ := h.freshFile
  obtain ⟨hrefs, hpos, hfs, hnames⟩ := (h.mods m).eq hx
  have hold : ∀ m' c, c ∈ s.clientsOf m' →
      Function.update s.clients s.nextClient (some m) c = some m' := by
    intro m' c hc
    have hne : c ≠ s.nextClient := by
      rintro rfl
      exact hunlisted m' hc
    rw [Function.update_of_ne hne]
    exact ((h.tidy.lists m' c).mp hc).2
  refine ⟨⟨fun m' => ?_, fun m' l hl => ?_, fun c m' hc => ?_, h.keys, fun m' hm' => ?_,
    fun c hc => ?_⟩, fun c => ?_, Finset.insert_subset_insert _ h.handles⟩
  · by_cases heq : m' = m
    · subst heq
      refine .inr ⟨{ x with refs := x.refs + 1, fs := true }, by simp, ?_, Nat.succ_pos _, by simp,
        hnames⟩
      simp only [holders, clientsOf, Function.update_self, Option.getD_some,
        List.length_cons] at hrefs ⊢
      omega
    · exact (h.mods m').congr (Function.update_of_ne heq _ _) rfl (Function.update_of_ne heq _ _)
        fun _ => Iff.rfl
  · simp only at hl ⊢
    by_cases heq : m' = m
    · subst heq
      rw [Function.update_self, Option.some.injEq] at hl
      subst hl
      refine ⟨List.cons_ne_nil _ _, List.nodup_cons.mpr ⟨hunlisted m', h.tidy.nodup m'⟩, ?_⟩
      intro c hc
      rcases List.mem_cons.mp hc with rfl | hc
      · exact Function.update_self _ _ _
      · exact hold m' c hc
    · rw [Function.update_of_ne heq] at hl
      obtain ⟨hne, hnodup, -⟩ := h.lists m' l hl
      exact ⟨hne, hnodup, fun c hc => hold m' c (by simpa [clientsOf, hl] using hc)⟩
  · simp only at hc
    have hlist : ∀ c', c' = s.nextClient ∧ m' = m ∨ c' ∈ s.clientsOf m' → c' ∈
        (Function.update s.privs m (some (s.nextClient :: s.clientsOf m)) m').getD [] := by
      intro c' hc'
      by_cases heq : m' = m
      · subst heq
        simpa using hc'
      · rw [Function.update_of_ne heq]
        exact hc'.resolve_left fun hboth => heq hboth.2
    refine hlist c ?_
    by_cases heq : c = s.nextClient
    · subst heq
      rw [Function.update_self, Option.some.injEq] at hc
      exact .inl ⟨rfl, hc.symm⟩
    · rw [Function.update_of_ne heq] at hc
      exact .inr (h.listed c m' hc)
  · have hne := h.ne_of_fresh hx hm'
    exact (Function.update_of_ne hne _ _).trans (h.freshMod m' hm')
  · have hlt : s.nextClient + 1 ≤ c := hc
    have hne : c ≠ s.nextClient := by omega
    obtain ⟨hnone, hfh⟩ := h.freshClient c (by omega)
    refine ⟨(Function.update_of_ne hne _ _).trans hnone, ?_⟩
    simp [hne, hfh]
  · by_cases heq : c = s.nextClient
    · subst heq
      simp
    · simp [heq, h.opened c]

theorem Inv.fsOpen (h : Inv s) (mem : FsOpenMem) (path : Option String) :
    ∃ ret s', s.exec (.fsOpen mem path) = some (ret, s') ∧
      (s'.Tidy ↔ s.Safe (.fsOpen mem path)) ∧ (s.Safe (.fsOpen mem path) → Inv s') := by
  have hrefused : ∀ ret, s.exec (.fsOpen mem path) = some (ret, s) → s.Safe (.fsOpen mem path) →
      ∃ ret s', s.exec (.fsOpen mem path) = some (ret, s') ∧
        (s'.Tidy ↔ s.Safe (.fsOpen mem path)) ∧ (s.Safe (.fsOpen mem path) → Inv s') :=
    fun ret hexec hsafe => ⟨ret, s, hexec, iff_of_true h.tidy hsafe, fun _ => h⟩
  cases path with
  | none => exact hrefused _ rfl fun _ _ _ hnone => nomatch hnone
  | some name =>
      cases hfind : s.find name with
      | none =>
          refine hrefused (-ENOENT) (by simp [exec, FuseFs.fsOpen, hfind]) ?_
          intro name' e x hname hfind'
          cases hname
          rw [hfind] at hfind'
          cases hfind'
      | some e =>
          obtain ⟨n, m⟩ := e
          obtain ⟨x, hx, hcases⟩ := fsOpen_cases h.toCore mem hfind
          split at hcases
          next hroom =>
            have hsafe : s.Safe (.fsOpen mem (some name)) ↔ mem.node = true := by
              constructor
              · intro hall
                exact hall name _ x rfl hfind hx hroom.1 hroom.2
              · exact fun hnode _ _ _ _ _ _ _ _ => hnode
            refine ⟨0, _, hcases, ?_, fun hall => ?_⟩
            · rw [hsafe]
              cases hnode : mem.node with
              | true => exact iff_of_true (h.addClient hx).tidy rfl
              | false =>
                  refine iff_of_false (fun htidy => ?_) (by simp)
                  have hmem := (htidy.lists m s.nextClient).mpr ⟨by simp, by simp⟩
                  exact h.freshFile.2 m (by simpa [clientsOf] using hmem)
            · have hadded := h.addClient hx
              rw [hsafe] at hall
              simpa only [hall, if_true] using hadded
          next hfull =>
            refine hrefused _ hcases ?_
            intro name' e y hname hfind' hy hclient hroom
            cases hname
            rw [hfind] at hfind'
            cases hfind'
            rw [hx] at hy
            cases hy
            exact absurd ⟨hclient, hroom⟩ hfull

/-- What `fs_release` does with the file of a client that is in the list. -/
theorem fsRelease_eq {file : ℕ} {l : List ℕ} (hfile : file ∈ s.fh)
    (hclient : s.clients file = some m) (hx : s.mods m = some x) (hfs : x.fs = true)
    (hl : s.privs m = some l) (hmem : file ∈ l) :
    s.fsRelease file =
      if x.refs = 1 then
        if l.erase file = [] then none
        else some (0, { s with
          mods := Function.update s.mods m none
          privs := Function.update s.privs m (some (l.erase file))
          clients := Function.update s.clients file none
          fh := s.fh.erase file
          openFiles := s.openFiles.erase file })
      else some (0, { s with
        mods := Function.update s.mods m
          (some { x with refs := x.refs - 1, fs := decide (l.erase file ≠ []) })
        privs := Function.update s.privs m
          (if l.erase file = [] then none else some (l.erase file))
        clients := Function.update s.clients file none
        fh := s.fh.erase file
        openFiles := s.openFiles.erase file }) := by
  rw [fsRelease, if_neg (not_not.mpr hfile)]
  by_cases hlast : x.refs = 1
  · by_cases hempty : l.erase file = []
    · simp [hclient, hx, hfs, listRemove, hl, hmem, clientDtor, FuseFs.unref, hlast, hempty, freeFs,
        setMod]
    · simp [hclient, hx, hfs, listRemove, hl, hmem, clientDtor, FuseFs.unref, hlast, hempty]
  · by_cases hempty : l.erase file = []
    · simp [hclient, hx, hfs, listRemove, hl, hmem, clientDtor, FuseFs.unref, hlast, hempty, freeFs,
        setMod]
    · simp [hclient, hx, hfs, listRemove, hl, hmem, clientDtor, FuseFs.unref, hlast, hempty]

/-- A client leaves the list of its module, which keeps another reference. -/
theorem Inv.removeClient (h : Inv s) {file : ℕ} {l : List ℕ} (hclient : s.clients file = some m)
    (hx : s.mods m = some x) (hl : s.privs m = some l) (hmem : file ∈ l) (hmore : 1 < x.refs) :
    Inv { s with
      mods := Function.update s.mods m
        (some { x with refs := x.refs - 1, fs := decide (l.erase file ≠ []) })
      privs := Function.update s.privs m (if l.erase file = [] then none else some (l.erase file))
      clients := Function.update s.clients file none
      fh := s.fh.erase file
      openFiles := s.openFiles.erase file } := by
  obtain ⟨hrefs, hpos, hfs, hnames⟩ := (h.mods m).eq hx
  obtain ⟨-, hnodup, hlist⟩ := h.lists m l hl
  have hrest :
      (if l.erase file = [] then none else some (l.erase file)).getD [] = l.erase file := by
    split <;> simp_all
  have hold : ∀ m' c, c ≠ file → s.clients c = some m' →
      Function.update s.clients file none c = some m' := fun m' c hne hc =>
    (Function.update_of_ne hne _ _).trans hc
  refine ⟨⟨fun m' => ?_, fun m' l' hl' => ?_, fun c m' hc => ?_, h.keys, fun m' hm' => ?_,
    fun c hc => ?_⟩, fun c => ?_, Finset.erase_subset_erase _ h.handles⟩
  · by_cases heq : m' = m
    · subst heq
      refine .inr ⟨{ x with refs := x.refs - 1, fs := decide (l.erase file ≠ []) }, by simp, ?_, ?_,
        ?_, hnames⟩
      · have hlength := List.length_erase_of_mem hmem
        have hpositive := List.length_pos_of_mem hmem
        simp only [holders, clientsOf, hl, Option.getD_some] at hrefs
        simp only [holders, clientsOf, Function.update_self, hrest]
        omega
      · simp only
        omega
      · by_cases hempty : l.erase file = []
        · simp [hempty]
        · simp [hempty]
    · exact (h.mods m').congr (Function.update_of_ne heq _ _) rfl (Function.update_of_ne heq _ _)
        fun _ => Iff.rfl
  · simp only at hl' ⊢
    by_cases heq : m' = m
    · subst heq
      rw [Function.update_self] at hl'
      split at hl'
      next => cases hl'
      next hne =>
        obtain rfl := Option.some.inj hl'
        refine ⟨hne, hnodup.erase _, fun c hc => ?_⟩
        obtain ⟨hother, hc⟩ := hnodup.mem_erase_iff.mp hc
        exact hold m' c hother (hlist c hc)
    · rw [Function.update_of_ne heq] at hl'
      obtain ⟨hne, hnodup', hlist'⟩ := h.lists m' l' hl'
      refine ⟨hne, hnodup', fun c hc => hold m' c ?_ (hlist' c hc)⟩
      rintro rfl
      exact heq (Option.some.inj ((hlist' c hc).symm.trans hclient))
  · simp only [clientsOf] at hc ⊢
    by_cases hfile : c = file
    · subst hfile
      rw [Function.update_self] at hc
      cases hc
    · rw [Function.update_of_ne hfile] at hc
      have hmember := h.listed c m' hc
      by_cases heq : m' = m
      · subst heq
        rw [Function.update_self, hrest]
        simp only [clientsOf, hl, Option.getD_some] at hmember
        exact hnodup.mem_erase_iff.mpr ⟨hfile, hmember⟩
      · rw [Function.update_of_ne heq]
        exact hmember
  · have hne := h.ne_of_fresh hx hm'
    exact (Function.update_of_ne hne _ _).trans (h.freshMod m' hm')
  · obtain ⟨hnone, hfh⟩ := h.freshClient c hc
    refine ⟨?_, fun hmem' => hfh (Finset.mem_of_mem_erase hmem')⟩
    by_cases hfile : c = file
    · subst hfile
      exact Function.update_self _ _ _
    · exact (Function.update_of_ne hfile _ _).trans hnone
  · by_cases hfile : c = file
    · subst hfile
      simp
    · simp [hfile, h.opened c]

/-- A release goes through exactly if its file is open and its module has another reference. -/
theorem Inv.fsRelease (h : Inv s) (file : ℕ) :
    (s.Safe (.fsRelease file) → ∃ ret s', s.exec (.fsRelease file) = some (ret, s') ∧ Inv s') ∧
      ∀ ret s', s.exec (.fsRelease file) = some (ret, s') → s.Safe (.fsRelease file) := by
  by_cases hfile : file ∈ s.fh
  · cases hclient : s.clients file with
    | none =>
        have hclosed : file ∉ s.openFiles := fun hopen => (h.opened file).mp hopen hclient
        have hfault : s.fsRelease file = none := by simp [FuseFs.fsRelease, hfile, hclient]
        refine ⟨fun hsafe => absurd (hsafe hfile).1 hclosed, fun ret s' hexec => ?_⟩
        rw [exec, hfault] at hexec
        cases hexec
    | some m =>
        obtain ⟨l, hl, hmem, hnodup⟩ := h.length_clientsOf hclient
        have hlength := List.length_pos_of_mem hmem
        have hholders : 0 < s.holders m := by
          simp only [holders, clientsOf, hl, Option.getD_some]
          omega
        obtain ⟨x, hx, hrefs, hfs, -⟩ := (h.mods m).alive hholders
        rw [hl] at hfs
        have heq := fsRelease_eq hfile hclient hx hfs hl hmem
        have hopen : file ∈ s.openFiles := (h.opened file).mpr (by simp [hclient])
        by_cases hlast : x.refs = 1
        · have hone : l.erase file = [] := by
            rw [← List.length_eq_zero_iff, List.length_erase_of_mem hmem]
            simp only [holders, clientsOf, hl, Option.getD_some] at hrefs
            omega
          rw [if_pos hlast, if_pos hone] at heq
          refine ⟨fun hsafe => ?_, fun ret s' hexec => ?_⟩
          · have hmore := (hsafe hfile).2 m x hclient hx
            omega
          · rw [exec, heq] at hexec
            cases hexec
        · rw [if_neg hlast] at heq
          have hmore : 1 < x.refs := by omega
          refine ⟨fun _ => ⟨0, _, heq, h.removeClient hclient hx hl hmem hmore⟩, fun _ _ _ _ => ?_⟩
          refine ⟨hopen, fun m' y hm' hy => ?_⟩
          rw [hclient] at hm'
          cases hm'
          rw [hx] at hy
          cases hy
          exact hmore
  · have hnothing : s.fsRelease file = some (-ENOENT, s) := by
      rw [FuseFs.fsRelease, if_pos hfile]
    exact ⟨fun _ => ⟨_, s, hnothing, h⟩, fun _ _ _ hmem => absurd hmem hfile⟩

end Files

/-! ## The end of a loop -/

section Stop

variable {s : FuseFs} {m : ℕ} {x : FsMod}

theorem clientDtors_eq (l : List ℕ) (hnodup : l.Nodup) (hx : s.mods m = some x)
    (hclients : ∀ c ∈ l, s.clients c = some m) (hmore : l.length < x.refs) :
    l.foldlM clientDtor s = some { s with
      mods := Function.update s.mods m (some { x with refs := x.refs - l.length })
      clients := fun c => if c ∈ l then none else s.clients c } := by
  induction l generalizing s x with
  | nil =>
      have hsame : Function.update s.mods m (some x) = s.mods := by
        rw [← hx, Function.update_eq_self]
      simp [hsame]
  | cons c l ih =>
      obtain ⟨hnew, hnodup⟩ := List.nodup_cons.mp hnodup
      rw [List.length_cons] at hmore
      have hne : x.refs ≠ 1 := by omega
      have hfirst : s.clientDtor c = some { s with
          mods := Function.update s.mods m (some { x with refs := x.refs - 1 })
          clients := Function.update s.clients c none } := by
        simp [clientDtor, hclients c List.mem_cons_self, FuseFs.unref, hx, hne]
      have hrest : ∀ c' ∈ l, Function.update s.clients c none c' = some m := by
        intro c' hc'
        have hother : c' ≠ c := by
          rintro rfl
          exact hnew hc'
        rw [Function.update_of_ne hother]
        exact hclients c' (List.mem_cons_of_mem _ hc')
      rw [List.foldlM_cons, hfirst, Option.bind_eq_bind, Option.bind_some,
        ih (s := { s with
            mods := Function.update s.mods m (some { x with refs := x.refs - 1 })
            clients := Function.update s.clients c none }) hnodup (Function.update_self _ _ _) hrest
          (by simp only; omega)]
      have hgone : (fun c' => if c' ∈ l then none else Function.update s.clients c none c') =
          fun c' => if c' ∈ c :: l then none else s.clients c' := by
        funext c'
        by_cases heq : c' = c
        · subst heq
          simp
        · simp [heq]
      simp only [Function.update_idem, hgone, List.length_cons, Nat.sub_sub, Nat.add_comm 1]

/-- The clients of a module of the context are freed, and the module stays alive. -/
theorem Core.fsCtxStopped (h : Core s) (hm : m ∈ s.modules.map Prod.snd) :
    ∃ s', s.fsCtxStopped m = some s' ∧ Core s' ∧ s'.modules = s.modules ∧
      s'.privs = Function.update s.privs m none := by
  obtain ⟨x, hx, hrefs, hfs, hnames⟩ := (h.mods m).alive (holders_pos_of_registered hm)
  rw [FuseFs.fsCtxStopped, hx]
  cases hl : s.privs m with
  | none =>
      rw [hl] at hfs
      refine ⟨s, by simp [hfs], h, rfl, ?_⟩
      rw [← hl, Function.update_eq_self]
  | some l =>
      rw [hl] at hfs
      obtain ⟨-, hnodup, hlist⟩ := h.lists m l hl
      have hmore : l.length < x.refs := by
        simp only [holders, clientsOf, hl, Option.getD_some, if_pos hm] at hrefs
        omega
      have hfreed := clientDtors_eq l hnodup hx hlist hmore
      refine ⟨{ s with
        mods := Function.update s.mods m (some { x with refs := x.refs - l.length, fs := false })
        clients := fun c => if c ∈ l then none else s.clients c
        privs := Function.update s.privs m none }, ?_, ?_, rfl, rfl⟩
      · simp [hfs, freeFs, hl, hfreed, setMod]
      · refine ⟨fun m' => ?_, fun m' l' hl' => ?_, fun c m' hc => ?_, h.keys, fun m' hm' => ?_,
          fun c hc => ?_⟩
        · by_cases heq : m' = m
          · subst heq
            refine .inr ⟨{ x with refs := x.refs - l.length, fs := false }, by simp, ?_,
              Nat.sub_pos_of_lt hmore, by simp, hnames⟩
            simp only [holders, clientsOf, hl, Option.getD_some, if_pos hm] at hrefs
            simp only [holders, clientsOf, Function.update_self, Option.getD_none, if_pos hm,
              List.length_nil]
            omega
          · exact (h.mods m').congr (Function.update_of_ne heq _ _) rfl
              (Function.update_of_ne heq _ _) fun _ => Iff.rfl
        · simp only at hl' ⊢
          by_cases heq : m' = m
          · subst heq
            rw [Function.update_self] at hl'
            cases hl'
          · rw [Function.update_of_ne heq] at hl'
            obtain ⟨hne, hnodup', hlist'⟩ := h.lists m' l' hl'
            refine ⟨hne, hnodup', fun c hc => ?_⟩
            have hother : c ∉ l := fun hmem =>
              heq (Option.some.inj ((hlist' c hc).symm.trans (hlist c hmem)))
            rw [if_neg hother]
            exact hlist' c hc
        · simp only [clientsOf] at hc ⊢
          split at hc
          next => cases hc
          next hother =>
            have hmember := h.listed c m' hc
            have heq : m' ≠ m := by
              rintro rfl
              exact hother (by simpa [clientsOf, hl] using hmember)
            rw [Function.update_of_ne heq]
            exact hmember
        · have hne := h.ne_of_fresh hx hm'
          exact (Function.update_of_ne hne _ _).trans (h.freshMod m' hm')
        · obtain ⟨hnone, hfh⟩ := h.freshClient c hc
          refine ⟨?_, hfh⟩
          simp [hnone]

theorem Core.stopAll (es : List (String × ℕ)) (h : Core s)
    (hes : ∀ e ∈ es, e.2 ∈ s.modules.map Prod.snd) :
    ∃ s', es.foldlM (fun s e => s.fsCtxStopped e.2) s = some s' ∧ Core s' ∧
      ∀ m, s'.privs m = if m ∈ es.map Prod.snd then none else s.privs m := by
  induction es generalizing s with
  | nil => exact ⟨s, rfl, h, fun m => by simp⟩
  | cons e es ih =>
      obtain ⟨s₁, hfirst, hcore, hmodules, hprivs⟩ := h.fsCtxStopped (hes e List.mem_cons_self)
      obtain ⟨s', hrest, hcore', hprivs'⟩ := ih hcore fun e' he' => by
        rw [hmodules]
        exact hes e' (List.mem_cons_of_mem _ he')
      refine ⟨s', by rw [List.foldlM_cons, hfirst]; exact hrest, hcore', fun m => ?_⟩
      rw [hprivs' m, hprivs]
      by_cases heq : m = e.2
      · subst heq
        simp
      · simp only [Function.update_of_ne heq, List.map_cons, List.mem_cons, heq, false_or]

/-- At the end of a loop the clients are gone exactly if only modules of the context had some. -/
theorem Inv.loopStop (h : Inv s) :
    ∃ s', s.exec .loopStop = some (0, s') ∧ (s'.Tidy ↔ s.Safe .loopStop) ∧
      (s.Safe .loopStop → Inv s') := by
  obtain ⟨s₁, hall, hcore, hprivs⟩ := h.stopAll s.modules fun e he => registered_of_mem he
  refine ⟨{ s₁ with openFiles := ∅ }, by simp [exec, FuseFs.loopStop, hall], ?_⟩
  have hinv : s.Safe .loopStop → Inv { s₁ with openFiles := ∅ } := by
    intro hsafe
    have hnoList : ∀ m, s₁.privs m = none := by
      intro m
      rw [hprivs m]
      split
      next => rfl
      next hother =>
        cases hl : s.privs m with
        | none => rfl
        | some l => exact absurd (hsafe m l hl) hother
    have hnone : ∀ c, s₁.clients c = none := by
      intro c
      cases hc : s₁.clients c with
      | none => rfl
      | some m =>
          have hmem := hcore.listed c m hc
          simp [clientsOf, hnoList m] at hmem
    refine ⟨⟨hcore.mods, hcore.lists, hcore.listed, hcore.keys, hcore.freshMod, hcore.freshClient⟩,
      fun c => ?_, Finset.empty_subset _⟩
    simp [hnone c]
  refine ⟨⟨fun htidy => ?_, fun hsafe => (hinv hsafe).tidy⟩, hinv⟩
  intro m l hl
  by_contra hother
  have hkept : s₁.privs m = some l := by rw [hprivs m, if_neg hother, hl]
  obtain ⟨hne, -, -⟩ := h.lists m l hl
  obtain ⟨c, hc⟩ := List.exists_mem_of_ne_nil l hne
  have hmem := ((htidy.lists m c).mp (by simpa [clientsOf, hkept] using hc)).1
  simp at hmem

end Stop

/-! ## Runs -/

/-- After a call the lists have the open files. -/
def KeepsTidy (_ : FuseFs) (_ : FsCall) (_ : ℤ) (s' : FuseFs) : Prop := s'.Tidy

theorem inv_empty : Inv {} := by
  refine ⟨⟨fun m => .inl ⟨rfl, rfl⟩, ?_, ?_, List.nodup_nil, fun _ _ => rfl, ?_⟩, ?_, ?_⟩ <;> simp

/-- In every run, no freed module, list or client is accessed, and after every call the list of
each module has its open files and their modules are alive, if and only if each call is safe. -/
theorem keepsTidy_iff (calls : List FsCall) :
    Always exec KeepsTidy {} calls ↔ Meets exec Safe {} calls := by
  refine always_iff_of_fault Inv ?_ calls inv_empty
  intro s call h
  have hkept : (∃ ret s', s.exec call = some (ret, s') ∧ Inv s') → s.Safe call →
      (s.Safe call → ∃ ret s', s.exec call = some (ret, s') ∧ KeepsTidy s call ret s' ∧ Inv s') ∧
        ∀ ret s', s.exec call = some (ret, s') → KeepsTidy s call ret s' → s.Safe call := by
    rintro ⟨ret, s', hexec, hinv⟩ hsafe
    exact ⟨fun _ => ⟨ret, s', hexec, hinv.tidy, hinv⟩, fun _ _ _ _ => hsafe⟩
  cases call with
  | register name => exact hkept ⟨_, _, rfl, h.register name⟩ trivial
  | ref m =>
      by_cases hheld : s.held m = 0
      · exact hkept ⟨-EINVAL, s, by simp [exec, hheld], h⟩ trivial
      · obtain ⟨s', hexec, hinv⟩ := h.ref hheld
        exact hkept ⟨0, s', hexec, hinv⟩ trivial
  | unref m =>
      by_cases hheld : s.held m = 0
      · exact hkept ⟨-EINVAL, s, by simp [exec, hheld], h⟩ trivial
      · obtain ⟨s', hexec, hinv⟩ := h.unref hheld
        exact hkept ⟨0, s', hexec, hinv⟩ trivial
  | deregister m fromUser => exact hkept (h.deregister m fromUser) trivial
  | fsOpen mem path =>
      obtain ⟨ret, s', hexec, hiff, hinv⟩ := h.fsOpen mem path
      refine ⟨fun hsafe => ⟨ret, s', hexec, hiff.mpr hsafe, hinv hsafe⟩, ?_⟩
      intro ret' s'' hexec' htidy
      rw [hexec] at hexec'
      cases hexec'
      exact hiff.mp htidy
  | fsRelease file =>
      obtain ⟨hgoes, hsafe⟩ := h.fsRelease file
      refine ⟨fun hs => ?_, fun ret s' hexec _ => hsafe ret s' hexec⟩
      obtain ⟨ret, s', hexec, hinv⟩ := hgoes hs
      exact ⟨ret, s', hexec, hinv.tidy, hinv⟩
  | loopStop =>
      obtain ⟨s', hexec, hiff, hinv⟩ := h.loopStop
      refine ⟨fun hsafe => ⟨0, s', hexec, hiff.mpr hsafe, hinv hsafe⟩, ?_⟩
      intro ret' s'' hexec' htidy
      rw [hexec] at hexec'
      cases hexec'
      exact hiff.mp htidy

def plenty : FsOpenMem := ⟨true, true, true, true⟩

/-- The file is released before its module is deregistered. -/
theorem keepsTidy_releasedFirst :
    Always exec KeepsTidy {} [.register "leo", .fsOpen plenty (some "leo"), .fsRelease 0,
      .deregister 0 true] := by
  refine (keepsTidy_iff _).mpr ⟨trivial, fun _ _ _ _ _ _ _ _ => rfl, ?_, trivial, trivial⟩
  refine fun _ => ⟨by decide, fun m x hm hx => ?_⟩
  obtain rfl : 0 = m := Option.some.inj hm
  have hrefs : x.refs = 3 := (congrArg FsMod.refs (Option.some.inj hx)).symm
  omega

/-- The last file of a deregistered module takes the module with it. -/
theorem not_keepsTidy_lastFile :
    ¬ Always exec KeepsTidy {} [.register "leo", .fsOpen plenty (some "leo"), .deregister 0 true,
      .fsRelease 0] := by
  intro h
  exact h.2.2.2

end FuseFs
end Libmodule
