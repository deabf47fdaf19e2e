import Mathlib.Data.List.Chain
import Mathlib.Data.List.Nodup
import Mathlib.Logic.Function.Basic

/-! # Resources on loan

Parties that hold resources. A party may lend its resource to a new party and is idle until that
party leaves, whose lender, if it holds the same resource, then becomes active again. The holders of
a resource form a stack with the active one at the top. -/

namespace CS330

variable {ι ρ : Type*}

/-- What a party holds, from whom, and whether it has lent it on. -/
structure Holder (ι ρ : Type*) where
  resource : ρ
  lender : ι
  idle : Bool

/-- The party `i` is the one that uses `r`. -/
def Uses (s : ι → Option (Holder ι ρ)) (r : ρ) (i : ι) : Prop :=
  ∃ h, s i = some h ∧ h.resource = r ∧ h.idle = false

section
variable [DecidableEq ι]

/-- `i` lends its resource to the new party `j`. -/
def lend (s : ι → Option (Holder ι ρ)) (i j : ι) (h : Holder ι ρ) : ι → Option (Holder ι ρ) :=
  Function.update (Function.update s i (some { h with idle := true })) j
    (some ⟨h.resource, i, false⟩)

/-- The lender of a party that holds `h`, if it holds the same resource, is no longer idle. -/
def wake [DecidableEq ρ] (s : ι → Option (Holder ι ρ)) (h : Holder ι ρ) :
    ι → Option (Holder ι ρ) :=
  match s h.lender with
  | none => s
  | some l =>
    if l.resource = h.resource then
      Function.update s h.lender (some { l with idle := false })
    else s

def leave [DecidableEq ρ] (s : ι → Option (Holder ι ρ)) (i : ι) (h : Holder ι ρ) :
    ι → Option (Holder ι ρ) :=
  Function.update (wake s h) i none

/-- The moves of the parties. Only active parties lend and leave. -/
inductive LoanStep [DecidableEq ρ] (s : ι → Option (Holder ι ρ)) :
    (ι → Option (Holder ι ρ)) → Prop where
  | keep : LoanStep s s
  | lend (hi : s i = some h) (hactive : h.idle = false) (hj : s j = none) :
    LoanStep s (lend s i j h)
  | create (hj : s j = none) (hr : ∀ i h, s i = some h → h.resource ≠ r) :
    LoanStep s (Function.update s j (some ⟨r, l, false⟩))
  | leave (hi : s i = some h) (hactive : h.idle = false) : LoanStep s (leave s i h)

end

/-- The holders of every resource, the active one first, each followed by its lender. -/
structure Stacked (s : ι → Option (Holder ι ρ)) (stack : ρ → List ι) : Prop where
  mem_iff : ∀ {i r}, i ∈ stack r ↔ ∃ h, s i = some h ∧ h.resource = r
  nodup : ∀ r, (stack r).Nodup
  active_iff : ∀ {i h}, s i = some h → (h.idle = false ↔ (stack h.resource).head? = some i)
  lenders : ∀ r, (stack r).IsChain fun i j => ∃ h, s i = some h ∧ h.lender = j

namespace Stacked

variable {s s' : ι → Option (Holder ι ρ)} {stack : ρ → List ι} {i j : ι} {r : ρ} {h : Holder ι ρ}

theorem uses_iff (S : Stacked s stack) : Uses s r i ↔ (stack r).head? = some i := by
  constructor
  · rintro ⟨h, hi, rfl, hidle⟩
    exact (S.active_iff hi).1 hidle
  · intro hhead
    obtain ⟨h, hi, rfl⟩ := S.mem_iff.1 (List.mem_of_mem_head? hhead)
    exact ⟨h, hi, rfl, (S.active_iff hi).2 hhead⟩

theorem uses_unique (S : Stacked s stack) (hi : Uses s r i) (hj : Uses s r j) : i = j :=
  Option.some.inj ((S.uses_iff.1 hi).symm.trans (S.uses_iff.1 hj))

/-- A resource that somebody holds has exactly one user. -/
theorem existsUnique_uses (S : Stacked s stack) (hi : s i = some h) :
    ∃! j, Uses s h.resource j := by
  have hmem : i ∈ stack h.resource := S.mem_iff.2 ⟨h, hi, rfl⟩
  obtain ⟨j, js, hstack⟩ := List.exists_cons_of_ne_nil (List.ne_nil_of_mem hmem)
  have huses : Uses s h.resource j := S.uses_iff.2 (by rw [hstack]; rfl)
  exact ⟨j, huses, fun k hk => S.uses_unique hk huses⟩

/-- Parties with resources of their own. -/
theorem exists_of_separate (hactive : ∀ {i h}, s i = some h → h.idle = false)
    (hsep : ∀ {i j h h'}, s i = some h → s j = some h' → h.resource = h'.resource → i = j) :
    ∃ stack, Stacked s stack := by
  obtain ⟨top, htop⟩ : ∃ top : ρ → Option ι, ∀ r i, top r = some i ↔
      ∃ h, s i = some h ∧ h.resource = r := by
    suffices ∀ r, ∃ o : Option ι, ∀ i, o = some i ↔ ∃ h, s i = some h ∧ h.resource = r from
      Classical.axiomOfChoice this
    intro r
    by_cases hr : ∃ i h, s i = some h ∧ h.resource = r
    · obtain ⟨i, h, hi, rfl⟩ := hr
      refine ⟨some i, fun j => ⟨?_, fun ⟨h', hj, hres⟩ => hsep hi hj hres.symm ▸ rfl⟩⟩
      rintro ⟨⟩
      exact ⟨h, hi, rfl⟩
    · exact ⟨none, fun j => iff_of_false nofun fun hj => hr ⟨j, hj⟩⟩
  refine ⟨fun r => (top r).toList, ?_, fun r => ?_, fun {i h} hi => ?_, fun r => ?_⟩
  · intro i r
    rw [Option.mem_toList, htop]
  · cases top r with
    | none => exact List.nodup_nil
    | some i => exact List.nodup_singleton i
  · refine iff_of_true (hactive hi) ?_
    rw [Option.head?_toList]
    exact (htop ..).2 ⟨h, hi, rfl⟩
  · cases top r with
    | none => exact .nil
    | some i => exact .singleton i

/-- The stack of the resource of an active party. -/
theorem eq_cons (S : Stacked s stack) (hi : s i = some h) (hactive : h.idle = false) :
    ∃ is, stack h.resource = i :: is := by
  have hhead := (S.active_iff hi).1 hactive
  exact ⟨_, (List.cons_head?_tail hhead).symm⟩

theorem ne_of_eq_none (S : Stacked s stack) (hj : s j = none) (hmem : i ∈ stack r) : i ≠ j := by
  rintro rfl
  obtain ⟨h, hi, -⟩ := S.mem_iff.1 hmem
  rw [hj] at hi
  cases hi

/-- Only the holders of `r` change. -/
theorem of_update [DecidableEq ρ] {is : List ι} (S : Stacked s stack)
    (hother : ∀ {k h}, h.resource ≠ r → (s' k = some h ↔ s k = some h))
    (hmem : ∀ k, k ∈ is ↔ ∃ h, s' k = some h ∧ h.resource = r) (hnodup : is.Nodup)
    (hactive : ∀ {k h}, s' k = some h → h.resource = r → (h.idle = false ↔ is.head? = some k))
    (hchain : is.IsChain fun i j => ∃ h, s' i = some h ∧ h.lender = j) :
    Stacked s' (Function.update stack r is) := by
  constructor
  case mem_iff =>
    intro k r'
    rcases eq_or_ne r' r with rfl | hr
    · rw [Function.update_self, hmem]
    · rw [Function.update_of_ne hr, S.mem_iff]
      refine exists_congr fun h => and_congr_left fun hres => ?_
      rw [hother (hres ▸ hr)]
  case nodup =>
    intro r'
    rcases eq_or_ne r' r with rfl | hr
    · rwa [Function.update_self]
    · rw [Function.update_of_ne hr]
      exact S.nodup r'
  case active_iff =>
    intro k h hk
    rcases eq_or_ne h.resource r with rfl | hr
    · rw [Function.update_self]
      exact hactive hk rfl
    · rw [Function.update_of_ne hr]
      exact S.active_iff ((hother hr).1 hk)
  case lenders =>
    intro r'
    rcases eq_or_ne r' r with rfl | hr
    · rwa [Function.update_self]
    · rw [Function.update_of_ne hr]
      refine (S.lenders r').imp_of_mem_imp fun i j hi _ hlender => ?_
      obtain ⟨h, hs, rfl⟩ := hlender
      obtain ⟨h', hs', hres⟩ := S.mem_iff.1 hi
      obtain rfl := Option.some.inj (hs.symm.trans hs')
      exact ⟨h, (hother (hres ▸ hr)).2 hs, rfl⟩

/-! ## The moves -/

variable [DecidableEq ι] [DecidableEq ρ]

theorem lend (S : Stacked s stack) (hi : s i = some h) (hactive : h.idle = false)
    (hj : s j = none) :
    Stacked (lend s i j h) (Function.update stack h.resource (j :: stack h.resource)) := by
  have hij : i ≠ j := by
    rintro rfl
    rw [hj] at hi
    cases hi
  obtain ⟨is, hstack⟩ := S.eq_cons hi hactive
  have hnot : j ∉ stack h.resource := fun hmem => S.ne_of_eq_none hj hmem rfl
  have hself : CS330.lend s i j h j = some ⟨h.resource, i, false⟩ := Function.update_self ..
  have hlender : CS330.lend s i j h i = some { h with idle := true } :=
    (Function.update_of_ne hij _ _).trans (Function.update_self ..)
  have hrest {k} (hki : k ≠ i) (hkj : k ≠ j) : CS330.lend s i j h k = s k :=
    (Function.update_of_ne hkj _ _).trans (Function.update_of_ne hki _ _)
  refine S.of_update (fun {k h'} hr => ?_) (fun k => ?_) ((S.nodup _).cons hnot)
    (fun {k h'} hk hr => ?_) ?_
  · rcases eq_or_ne k j with rfl | hkj
    · rw [hself, hj]
      exact iff_of_false (fun heq => hr (Option.some.inj heq ▸ rfl)) nofun
    rcases eq_or_ne k i with rfl | hki
    · rw [hlender, hi]
      exact iff_of_false (fun heq => hr (Option.some.inj heq ▸ rfl))
        fun heq => hr (Option.some.inj heq ▸ rfl)
    · rw [hrest hki hkj]
  · rcases eq_or_ne k j with rfl | hkj
    · simp [hself]
    rcases eq_or_ne k i with rfl | hki
    · simp [hlender, hstack]
    · rw [hrest hki hkj, List.mem_cons, or_iff_right hkj, S.mem_iff]
  · rcases eq_or_ne k j with rfl | hkj
    · rw [hself] at hk
      cases hk
      simp
    rcases eq_or_ne k i with rfl | hki
    · rw [hlender] at hk
      cases hk
      simp [hkj.symm]
    · rw [hrest hki hkj] at hk
      rw [S.active_iff hk, hr, hstack]
      simp [hki.symm, hkj.symm]
  · have hchain := S.lenders h.resource
    rw [hstack] at hchain ⊢
    refine .cons_cons ⟨_, hself, rfl⟩ (hchain.imp_of_mem_imp fun k k' hk _ hlend => ?_)
    rcases eq_or_ne k i with rfl | hki
    · obtain ⟨h', hs, rfl⟩ := hlend
      obtain rfl := Option.some.inj (hi.symm.trans hs)
      exact ⟨_, hlender, rfl⟩
    · rwa [hrest hki fun hkj => hnot (hkj ▸ hstack ▸ hk)]

theorem create (S : Stacked s stack) (hj : s j = none)
    (hr : ∀ i h, s i = some h → h.resource ≠ r) (l : ι) :
    Stacked (Function.update s j (some ⟨r, l, false⟩)) (Function.update stack r [j]) := by
  refine S.of_update (fun {k h} hne => ?_) (fun k => ?_) (List.nodup_singleton j)
    (fun {k h} hk hres => ?_) (.singleton j)
  · rcases eq_or_ne k j with rfl | hkj
    · rw [Function.update_self, hj]
      exact iff_of_false (fun heq => hne (Option.some.inj heq ▸ rfl)) nofun
    · rw [Function.update_of_ne hkj]
  · rcases eq_or_ne k j with rfl | hkj
    · simp
    · rw [Function.update_of_ne hkj]
      refine iff_of_false (fun hmem => hkj (List.mem_singleton.1 hmem)) ?_
      rintro ⟨h, hk, hres⟩
      exact hr k h hk hres
  · rcases eq_or_ne k j with rfl | hkj
    · rw [Function.update_self] at hk
      cases hk
      simp
    · rw [Function.update_of_ne hkj] at hk
      exact absurd hres (hr k h hk)

/-- The lender of the active party is below it, and is the one that wakes up. -/
theorem leave_of_cons {is : List ι} (S : Stacked s stack) (hi : s i = some h)
    (hstack : stack h.resource = i :: j :: is) : h.lender = j ∧ j ≠ i ∧ ∃ l,
      s j = some l ∧ l.resource = h.resource ∧
        leave s i h =
          Function.update (Function.update s j (some { l with idle := false })) i none := by
  have hchain := S.lenders h.resource
  have hnodup := S.nodup h.resource
  rw [hstack] at hchain hnodup
  obtain ⟨h', hi', hlender⟩ := (List.isChain_cons_cons.1 hchain).1
  obtain rfl := Option.some.inj (hi.symm.trans hi')
  have hj : j ∈ stack h.resource := by simp [hstack]
  obtain ⟨l, hl, hres⟩ := S.mem_iff.1 hj
  have hne : j ≠ i := fun heq => (List.nodup_cons.1 hnodup).1 (heq ▸ .head _)
  refine ⟨hlender, hne, l, hl, hres, ?_⟩
  rw [leave, wake, hlender, hl]
  dsimp only
  rw [if_pos hres]

/-- Nobody wakes up if the party does not hold the resource on loan. -/
theorem leave_of_singleton (S : Stacked s stack) (hstack : stack h.resource = [i]) :
    leave s i h = Function.update s i none := by
  rw [leave, wake]
  cases hl : s h.lender with
  | none => rfl
  | some l =>
    dsimp only
    split
    next hres =>
      have hmem : h.lender ∈ stack h.resource := S.mem_iff.2 ⟨l, hl, hres⟩
      obtain rfl : h.lender = i := by simpa [hstack] using hmem
      exact Function.update_idem ..
    next => rfl

theorem leave {is : List ι} (S : Stacked s stack) (hi : s i = some h)
    (hstack : stack h.resource = i :: is) :
    Stacked (leave s i h) (Function.update stack h.resource is) := by
  have hnodup := S.nodup h.resource
  have hchain := S.lenders h.resource
  rw [hstack] at hnodup hchain
  obtain ⟨hnot, hnodup⟩ := List.nodup_cons.1 hnodup
  have hmem {k h'} (hk : s k = some h') (hres : h'.resource = h.resource) : k = i ∨ k ∈ is := by
    have := S.mem_iff.2 ⟨h', hk, hres⟩
    rwa [hstack, List.mem_cons] at this
  cases is with
  | nil =>
    rw [S.leave_of_singleton hstack]
    have hrest {k} (hki : k ≠ i) : Function.update s i none k = s k := Function.update_of_ne hki ..
    have hnone {k h'} (hk : Function.update s i none k = some h') : h'.resource ≠ h.resource := by
      intro hres
      rcases eq_or_ne k i with rfl | hki
      · simp at hk
      · rw [hrest hki] at hk
        exact (hmem hk hres).elim hki nofun
    refine S.of_update (fun {k h'} hr => ?_) (fun k => ?_) hnodup (fun {k h'} hk hr => ?_) .nil
    · rcases eq_or_ne k i with rfl | hki
      · rw [Function.update_self, hi]
        exact iff_of_false nofun fun heq => hr (Option.some.inj heq ▸ rfl)
      · rw [hrest hki]
    · exact iff_of_false nofun fun ⟨_, hk, hres⟩ => hnone hk hres
    · exact absurd hr (hnone hk)
  | cons j is =>
    obtain ⟨hlender, hji, l, hl, hres, heq⟩ := S.leave_of_cons hi hstack
    rw [heq]
    generalize hs' : Function.update (Function.update s j (some { l with idle := false })) i none = s'
    have hself : s' i = none := by rw [← hs', Function.update_self]
    have hwoken : s' j = some { l with idle := false } := by
      rw [← hs', Function.update_of_ne hji, Function.update_self]
    have hrest {k} (hki : k ≠ i) (hkj : k ≠ j) : s' k = s k := by
      rw [← hs', Function.update_of_ne hki, Function.update_of_ne hkj]
    refine S.of_update (fun {k h'} hr => ?_) (fun k => ?_) hnodup (fun {k h'} hk hr => ?_) ?_
    · rcases eq_or_ne k i with rfl | hki
      · rw [hself, hi]
        exact iff_of_false nofun fun heq => hr (Option.some.inj heq ▸ rfl)
      rcases eq_or_ne k j with rfl | hkj
      · rw [hwoken, hl]
        exact iff_of_false (fun heq => hr (Option.some.inj heq ▸ hres))
          fun heq => hr (Option.some.inj heq ▸ hres)
      · rw [hrest hki hkj]
    · rcases eq_or_ne k i with rfl | hki
      · rw [hself]
        exact iff_of_false hnot nofun
      rcases eq_or_ne k j with rfl | hkj
      · simp [hwoken, hres]
      · rw [hrest hki hkj]
        refine ⟨fun hk => S.mem_iff.1 (hstack ▸ .tail _ hk), ?_⟩
        rintro ⟨h', hk, hr⟩
        exact (hmem hk hr).resolve_left hki
    · rcases eq_or_ne k i with rfl | hki
      · rw [hself] at hk
        cases hk
      rcases eq_or_ne k j with rfl | hkj
      · rw [hwoken] at hk
        cases hk
        simp
      · rw [hrest hki hkj] at hk
        rw [S.active_iff hk, hr, hstack]
        simp [hki.symm, hkj.symm]
    · refine (List.isChain_cons_cons.1 hchain).2.imp_of_mem_imp fun k k' hk _ hlend => ?_
      rcases eq_or_ne k j with rfl | hkj
      · obtain ⟨h', hs, rfl⟩ := hlend
        obtain rfl := Option.some.inj (hl.symm.trans hs)
        exact ⟨_, hwoken, rfl⟩
      · rwa [hrest (fun hki => hnot (hki ▸ hk)) hkj]

/-- Every move keeps the holders stacked. -/
theorem step (S : Stacked s stack) (hstep : LoanStep s s') : ∃ stack', Stacked s' stack' := by
  cases hstep with
  | keep => exact ⟨_, S⟩
  | lend hi hactive hj => exact ⟨_, S.lend hi hactive hj⟩
  | create hj hr => exact ⟨_, S.create hj hr _⟩
  | leave hi hactive =>
    obtain ⟨is, hstack⟩ := S.eq_cons hi hactive
    exact ⟨_, S.leave hi hstack⟩

end Stacked

end CS330
