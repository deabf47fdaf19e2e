import CS330.Memory.ProtectSpec

/-! # Runs of `vm_area_mprotect`

Behind the first area of the range the self-calls go on from area to area as long as these touch,
and join each one with the area in front of it. Every self-call rounds the remaining length up
again. `Reaches` says on the areas whether the self-calls get to the end of the range. -/

namespace CS330

variable {H : Header} {P : Paging H} {c c' : ExecContext P} {prot : BitVec 32}
  {l u a e p q addr : Nat} {k length r : Int} {vms before rest front ys : List VmArea}
  {cur prev b : VmArea}

/-! ## Invariants -/

/-- A self-call gets what is left of the rounded range. -/
theorem protectRest_eq (h : addr ≤ q) (hq : q < addr + (roundUp length).toNat)
    (hv : ValidLength length) :
    protectRest c q addr (roundUp length) vms =
      .call ⟨{ c with vmArea := vms }, q, (addr + (roundUp length).toNat - q : Nat)⟩ := by
  obtain ⟨h₁, h₂⟩ := hv.roundUp
  rw [protectRest, int32_eq (by omega) (by omega)]
  have : roundUp length - (q - addr) = (addr + (roundUp length).toNat - q : Nat) := by omega
  rw [this]

theorem ValidLength.behind (hv : ValidLength length) (h : addr ≤ q)
    (hq : q < addr + (CS330.roundUp length).toNat) :
    ValidLength (addr + (CS330.roundUp length).toNat - q : Nat) := by
  obtain ⟨h₁, h₂⟩ := hv.roundUp
  unfold ValidLength
  omega

/-- What holds of the context and the length in every activation of a call. -/
structure ProtectInv (l : Nat) (c : ExecContext P) (length : Int) : Prop where
  sorted : Sorted l c.vmArea H.mmapAreaEnd
  count : c.vmArea.length ≤ 128
  valid : ValidLength length

namespace ProtectInv

theorem activation (I : ProtectInv l c length) (prot : BitVec 32) (addr : Nat) :
    Activation c prot l addr length (addr + (roundUp length).toNat)
      (protectBody prot ⟨c, addr, length⟩) :=
  protectBody_activation I.sorted I.valid I.count

theorem call {args : ProtectArgs P} (I : ProtectInv l c length)
    (h : protectBody prot ⟨c, addr, length⟩ = .call args) :
    ProtectInv l args.current args.length ∧ (Aligned c.vmArea → 4096 ∣ addr →
      Aligned args.current.vmArea ∧ 4096 ∣ args.addr) := by
  have A := h ▸ I.activation prot addr
  generalize ho : Outcome.call args = o at A
  cases A with
  | refused => cases ho
  | last => cases ho
  | more E hlt _ _ _ hpaint hcount =>
    rw [protectRest_eq E.lt_end.le hlt I.valid] at ho
    obtain rfl := Outcome.call.inj ho
    refine ⟨⟨hpaint.sorted I.sorted E.lt_end, hcount, I.valid.behind E.lt_end.le hlt⟩,
      fun hal haddr => ?_⟩
    have hcur := (hal _ E.mem).2
    exact ⟨hpaint.ends haddr hcur hal, hcur⟩

theorem ret (I : ProtectInv l c length)
    (h : protectBody prot ⟨c, addr, length⟩ = .ret (r, c')) :
    Sorted l c'.vmArea H.mmapAreaEnd ∧ c'.vmArea.length ≤ 128 ∧
      (Aligned c.vmArea → 4096 ∣ addr → Aligned c'.vmArea) := by
  have A := h ▸ I.activation prot addr
  generalize ho : Outcome.ret (r, c') = o at A
  cases A with
  | refused =>
    obtain ⟨rfl, rfl⟩ := Prod.mk.inj (Outcome.ret.inj ho)
    exact ⟨I.sorted, I.count, fun hal _ => hal⟩
  | last E hle hpaint hcount _ =>
    obtain ⟨rfl, rfl⟩ := Prod.mk.inj (Outcome.ret.inj ho)
    obtain ⟨h₁, h₂⟩ := I.valid.roundUp
    have hround := I.valid.dvd_roundUp
    refine ⟨hpaint.sorted I.sorted (by omega), hcount, fun hal haddr => ?_⟩
    exact hpaint.ends haddr (by omega) hal
  | more => cases ho

end ProtectInv

/-- A call keeps the list sorted and its areas few, and a call on a page-aligned address keeps
their bounds aligned. -/
theorem VmAreaMprotect.sorted (h : VmAreaMprotect c addr length prot r c')
    (hs : Sorted l c.vmArea H.mmapAreaEnd) (hc : c.vmArea.length ≤ 128) (hv : ValidLength length) :
    Sorted l c'.vmArea H.mmapAreaEnd ∧ c'.vmArea.length ≤ 128 ∧
      (Aligned c.vmArea → 4096 ∣ addr → Aligned c'.vmArea) := by
  have I : ProtectInv l c length := ⟨hs, hc, hv⟩
  suffices H' : ∀ {args res}, Returns (protectBody prot) args res →
      ProtectInv l args.current args.length →
      Sorted l res.2.vmArea H.mmapAreaEnd ∧ res.2.vmArea.length ≤ 128 ∧
        (Aligned args.current.vmArea → 4096 ∣ args.addr → Aligned res.2.vmArea) from H' h I
  intro args res H'
  induction H' with
  | ret hb => exact fun I => I.ret hb
  | call hb _ ih =>
    intro I
    obtain ⟨I', hal⟩ := I.call hb
    obtain ⟨h₁, h₂, h₃⟩ := ih I'
    exact ⟨h₁, h₂, fun ha hd => h₃ (hal ha hd).1 (hal ha hd).2⟩

/-! ## The areas behind the first one -/

/-- The self-call on `p` and `k`, with the areas `ys` from `p` on, goes on to the end `e` of the
range; `a` is where the last area of the range starts. -/
inductive Reaches : List VmArea → Nat → Int → Nat → Nat → Prop where
  | last {b : VmArea} {ys : List VmArea} {p : Nat} {k : Int} : b.vmStart = p →
      p + (roundUp k).toNat ≤ b.vmEnd → Reaches (b :: ys) p k p (p + (roundUp k).toNat)
  | next {b : VmArea} {ys : List VmArea} {p : Nat} {k : Int} {a e : Nat} : b.vmStart = p →
      b.vmEnd < p + (roundUp k).toNat →
      Reaches ys b.vmEnd (p + (roundUp k).toNat - b.vmEnd : Nat) a e → Reaches (b :: ys) p k a e

/-- The self-call on `p` and `k` finds its range covered and goes on behind the first area. -/
def Advances (H : Header) (ys : List VmArea) (p : Nat) (k : Int) : Prop :=
  ∃ b rest, ys = b :: rest ∧ rest ≠ [] ∧ Covered ys p (p + k.toNat) ∧
    b.vmEnd < p + (roundUp k).toNat ∧ p + (roundUp k).toNat ≤ H.mmapAreaEnd

theorem Reaches.covered (h : Reaches ys p k a e) (hs : Sorted p ys u) (hv : ValidLength k) :
    Covered ys p e ∧ p + (roundUp k).toNat ≤ e ∧ e ≤ u := by
  induction h with
  | @last b rest p k hb hle =>
    obtain ⟨h₁, h₂, h₃⟩ := sorted_cons.mp hs
    refine ⟨fun x hx hxe => ?_, le_rfl, hle.trans h₃.le⟩
    rw [coverage_cons, if_pos ⟨hb.trans_le hx, hxe.trans_le hle⟩]
    rfl
  | @next b rest p k a e hb hlt _ ih =>
    obtain ⟨h₁, h₂, h₃⟩ := sorted_cons.mp hs
    have hv' := hv.behind (by omega) hlt
    obtain ⟨hcov, hle, heu⟩ := ih h₃ hv'
    have := hv'.le_roundUp
    exact ⟨(covered_cons_of_mem hb.le (by omega)).mpr hcov, by omega, heu⟩

/-- On page-aligned areas rounding changes nothing, so a covered range is gone through. -/
theorem Covered.reaches (h : Covered ys p (p + k.toNat)) (hs : Sorted p ys u) (hal : Aligned ys)
    (hp : 4096 ∣ p) (hv : ValidLength k) (hk : 4096 ∣ k) : ∃ a, Reaches ys p k a (p + k.toNat) := by
  have hpos := hv.1
  induction ys generalizing p k with
  | nil => simpa [coverage] using h p le_rfl (by omega)
  | cons b ys ih =>
    obtain ⟨h₁, h₂, h₃⟩ := sorted_cons.mp hs
    obtain ⟨⟨_, hb⟩, hal⟩ := List.forall_mem_cons.mp hal
    have hround := roundUp_of_dvd hk
    have hstart : b.vmStart = p := by
      refine Nat.le_antisymm (Nat.le_of_not_lt fun hlt => ?_) h₁
      have := h p le_rfl (by omega)
      rw [coverage_cons, if_neg (by omega), h₃.coverage_eq_none (.inl (by omega))] at this
      cases this
    by_cases hle : p + k.toNat ≤ b.vmEnd
    · have : Reaches (b :: ys) p k p _ := .last hstart (hround.symm ▸ hle)
      rw [hround] at this
      exact ⟨p, this⟩
    · have hlt : b.vmEnd < p + (roundUp k).toNat := by omega
      have hend : b.vmEnd + ((p + (roundUp k).toNat - b.vmEnd : Nat) : Int).toNat = p + k.toNat := by
        omega
      have hrest : Covered ys b.vmEnd
          (b.vmEnd + ((p + (roundUp k).toNat - b.vmEnd : Nat) : Int).toNat) := by
        rw [covered_cons_of_mem hstart.le (by omega)] at h
        rwa [hend]
      obtain ⟨a, ha⟩ := ih hrest h₃ hal hb (hv.behind (by omega) hlt) (by omega) (by omega)
      rw [hend] at ha
      exact ⟨a, .next hstart hlt ha⟩

theorem Reaches.last_area (h : Reaches ys p k a e) (hs : Sorted p ys u) (hal : Aligned ys)
    (hp : 4096 ∣ p) (hv : ValidLength k) (hk : 4096 ∣ k) :
    e = p + k.toNat ∧ ∃ b ∈ ys, b.vmStart = a ∧ p ≤ a ∧ a < e ∧ e ≤ b.vmEnd := by
  induction h with
  | @last b ys p k hb hle =>
    have := hv.1
    rw [roundUp_of_dvd hk] at hle ⊢
    exact ⟨rfl, b, List.mem_cons_self, hb, le_rfl, by omega, hle⟩
  | @next b ys p k a e hb hlt _ ih =>
    obtain ⟨h₁, h₂, h₃⟩ := sorted_cons.mp hs
    obtain ⟨⟨_, hb'⟩, hal⟩ := List.forall_mem_cons.mp hal
    have hround := roundUp_of_dvd hk
    obtain ⟨he, b', hmem, hstart, hpa, hae, hend⟩ :=
      ih h₃ hal hb' (hv.behind (by omega) hlt) (by omega)
    exact ⟨by omega, b', List.mem_cons_of_mem _ hmem, hstart, by omega, hae, hend⟩

/-- In a self-call the area in front of the range ends where the range starts. -/
theorem AreaAt.behind (h : AreaAt (front ++ prev :: ys) prev.vmEnd before cur rest)
    (hs : Sorted l (front ++ prev :: ys) u) :
    before = front ++ [prev] ∧ ys = cur :: rest ∧ cur.vmStart = prev.vmEnd := by
  obtain ⟨hf, hp, hy⟩ := sorted_middle.mp hs
  obtain ⟨htake, hdrop⟩ := h.walk_eq hs
  have hle : ∀ p ∈ front ++ [prev], decide (p.vmEnd ≤ prev.vmEnd) = true := by
    intro p hmem
    rcases List.mem_append.mp hmem with hmem | hmem
    · simpa using (hf.bounds hmem).2.2.trans hp.le
    · simp [List.mem_singleton.mp hmem]
  rw [show front ++ prev :: ys = (front ++ [prev]) ++ ys by simp] at htake hdrop
  rw [List.takeWhile_append_of_pos hle] at htake
  rw [List.dropWhile_append_of_pos hle] at hdrop
  cases ys with
  | nil => cases hdrop
  | cons b ys =>
    obtain ⟨hb, hb', _⟩ := sorted_cons.mp hy
    have hnot : ¬b.vmEnd ≤ prev.vmEnd := by omega
    simp only [List.takeWhile_cons, List.dropWhile_cons, hnot, decide_false] at htake hdrop
    obtain ⟨rfl, rfl⟩ := List.cons.inj hdrop
    refine ⟨?_, rfl, Nat.le_antisymm h.start_le hb⟩
    simpa using htake.symm

theorem coverage_behind (hs : Sorted l (front ++ prev :: ys) u) {x : Nat} (hx : prev.vmEnd ≤ x) :
    coverage (front ++ prev :: ys) x = coverage ys x := by
  obtain ⟨hf, hp, _⟩ := sorted_middle.mp hs
  rw [coverage_append, hf.coverage_eq_none (.inr (by omega)), coverage_cons, if_neg (by omega)]
  rfl

/-- What is left of a range behind its first area. -/
theorem AreaAt.covered_iff (h : AreaAt vms addr before cur rest) (hs : Sorted l vms u) :
    Covered vms addr e ↔ Covered rest cur.vmEnd e := by
  have hlast := h.lt_end
  have heq {x : Nat} (hx : cur.vmEnd ≤ x) : coverage vms x = coverage rest x := by
    rw [h.split]
    exact coverage_behind (h.split ▸ hs) hx
  refine ⟨fun hcov x hx hx' => heq hx ▸ hcov x (by omega) hx', fun hcov x hx hx' => ?_⟩
  by_cases hxc : x < cur.vmEnd
  · rw [h.coverage_eq hs (h.start_le.trans hx) hxc]
    rfl
  · rw [heq (Nat.le_of_not_lt hxc)]
    exact hcov x (Nat.le_of_not_lt hxc) hx'

/-- No area is left behind a covered range. -/
theorem AreaAt.le_of_covered (h : AreaAt vms addr before cur []) (hs : Sorted l vms u)
    (hcov : Covered vms addr e) : e ≤ cur.vmEnd := by
  by_contra hlt
  simpa [coverage] using (h.covered_iff hs).mp hcov cur.vmEnd le_rfl (Nat.lt_of_not_le hlt)

/-- Page-aligned areas cover whole pages. -/
theorem Covered.round {b : Nat} (h : Covered vms a b) (hal : Aligned vms) (hab : a < b)
    (he : 4096 ∣ e) (hbe : e < b + 4096) : Covered vms a e := by
  intro x hx hxe
  by_cases hxb : x < b
  · exact h x hx hxb
  obtain ⟨p, hp, hstart, hend⟩ : ∃ p ∈ vms, p.vmStart ≤ b - 1 ∧ b - 1 < p.vmEnd := by
    simpa [coverage] using h (b - 1) (by omega) (by omega)
  obtain ⟨hp₁, hp₂⟩ := hal p hp
  have : ∃ p ∈ vms, p.vmStart ≤ x ∧ x < p.vmEnd := ⟨p, hp, by omega, by omega⟩
  simpa [coverage] using this

/-- On whole pages the self-calls go through the part of a covered range behind its first area. -/
theorem AreaAt.reaches (h : AreaAt vms addr before cur rest) (hs : Sorted l vms u)
    (hal : Aligned vms) (haddr : 4096 ∣ addr) (hv : ValidLength length)
    (hcov : Covered vms addr (addr + byteLength length))
    (hlt : cur.vmEnd < addr + byteLength length) :
    ∃ a, Reaches rest cur.vmEnd (addr + byteLength length - cur.vmEnd : Nat) a
      (addr + byteLength length) := by
  obtain ⟨-, -, -, hdvd⟩ := hv.bytes
  have hcur := (hal cur h.mem).2
  have hsum : cur.vmEnd + (addr + byteLength length - cur.vmEnd : Nat) = addr + byteLength length :=
    Nat.add_sub_cancel' hlt.le
  obtain ⟨a, hr⟩ := Covered.reaches (k := (addr + byteLength length - cur.vmEnd : Nat))
    (hsum.symm ▸ (h.covered_iff hs).mp hcov) (sorted_middle.mp (h.split ▸ hs)).2.2
    (fun p hp => hal p (by simp [h.split, hp])) hcur (hv.behind h.lt_end.le hlt) (by omega)
  rw [Int.toNat_natCast, hsum] at hr
  exact ⟨a, hr⟩

theorem covered_behind (hs : Sorted l (front ++ prev :: ys) u) :
    Covered (front ++ prev :: ys) prev.vmEnd e ↔ Covered ys prev.vmEnd e := by
  refine forall_congr' fun x => forall_congr' fun hx => forall_congr' fun _ => ?_
  rw [coverage_behind hs hx]

/-- A self-call needs no room: it joins the area with the one in front of it. -/
theorem joinPrev_behind (hprev : prev.vmEnd = cur.vmStart) (hflags : prev.accessFlags = prot) :
    joinPrev (front ++ [prev]) cur prot = some prev := by
  simp [joinPrev, hprev, hflags, Option.filter]

theorem enters_behind (hs : Sorted l (front ++ prev :: ys) u) (hflags : prev.accessFlags = prot)
    (hcount : (front ++ prev :: ys).length ≤ 128) (hv : ValidLength k)
    (hcov : Covered ys prev.vmEnd (prev.vmEnd + k.toNat))
    (hreg : H.mmapAreaStart ≤ prev.vmEnd ∧ e ≤ H.mmapAreaEnd) :
    ∃ cur rest, ys = cur :: rest ∧
      Enters H (front ++ prev :: ys) prot prev.vmEnd k e (front ++ [prev]) cur rest := by
  have hcov := (covered_behind hs).mpr hcov
  obtain ⟨before, cur, rest, hat⟩ := hcov.areaAt (by have := hv.1; omega)
  obtain ⟨rfl, rfl, hstart⟩ := hat.behind hs
  refine ⟨cur, rest, rfl, hat, hcov, hreg, ?_⟩
  rw [areasNeeded, joinPrev_behind hstart.symm hflags, hstart]
  simpa using hcount

/-- What is known when a self-call is made on the range behind `prev`. -/
structure BehindInv (H : Header) (l : Nat) (front : List VmArea) (prev : VmArea)
    (ys : List VmArea) (prot : BitVec 32) (k : Int) : Prop where
  sorted : Sorted l (front ++ prev :: ys) H.mmapAreaEnd
  count : (front ++ prev :: ys).length ≤ 128
  valid : ValidLength k
  flags : prev.accessFlags = prot
  start_le : H.mmapAreaStart ≤ prev.vmEnd

/-- The first activation leaves the rest of the range to a self-call. -/
theorem ProtectInv.behindInv (I : ProtectInv l c length)
    (E : Enters H c.vmArea prot addr length (addr + (roundUp length).toNat) before cur rest)
    (hlt : cur.vmEnd < addr + (roundUp length).toNat) (hprev : prev.vmEnd = cur.vmEnd)
    (hflags : prev.accessFlags = prot)
    (hpaint : Painted l c.vmArea prot addr cur.vmEnd H.mmapAreaEnd (front ++ prev :: rest))
    (hcount : (front ++ prev :: rest).length ≤ 128) :
    BehindInv H l front prev rest prot (addr + (roundUp length).toNat - cur.vmEnd : Nat) := by
  have hstart := E.region.1
  have hend := E.lt_end
  exact ⟨hpaint.sorted I.sorted hend, hcount, I.valid.behind hend.le hlt, hflags, by omega⟩

/-- The results of a self-call: it fails, finishes the range in the next area, or joins the next
area with `prev` and goes on. -/
inductive Behind (t : P.Table) (prot : BitVec 32) (l : Nat) (front : List VmArea)
    (prev : VmArea) (ys : List VmArea) (k : Int) :
    Outcome (ProtectArgs P) (Int × ExecContext P) → Prop where
  | refused : (∀ a e, ¬Reaches ys prev.vmEnd k a e) → ¬Advances H ys prev.vmEnd k →
      Behind t prot l front prev ys k (.ret (-1, ⟨front ++ prev :: ys, t⟩))
  | last {cur : VmArea} {rest vms : List VmArea} : ys = cur :: rest → cur.vmStart = prev.vmEnd →
      prev.vmEnd + (roundUp k).toNat ≤ cur.vmEnd →
      Behind t prot l front prev ys k
        (.ret (0, ⟨vms, P.updateMap t prev.vmEnd prot (roundUp k)⟩))
  | more {cur prev' : VmArea} {rest front' : List VmArea} : ys = cur :: rest →
      cur.vmStart = prev.vmEnd → cur.vmEnd < prev.vmEnd + (roundUp k).toNat →
      Advances H ys prev.vmEnd k → prev'.vmEnd = cur.vmEnd →
      BehindInv H l front' prev' rest prot (prev.vmEnd + (roundUp k).toNat - cur.vmEnd : Nat) →
      (front' ++ prev' :: rest).length < (front ++ prev :: ys).length →
      (∀ x, x < prev.vmEnd →
        coverage (front' ++ prev' :: rest) x = coverage (front ++ prev :: ys) x) →
      Behind t prot l front prev ys k
        (.call ⟨⟨front' ++ prev' :: rest, t⟩, cur.vmEnd,
          (prev.vmEnd + (roundUp k).toNat - cur.vmEnd : Nat)⟩)

theorem BehindInv.behind (I : BehindInv H l front prev ys prot k) (t : P.Table) :
    Behind t prot l front prev ys k
      (protectBody prot ⟨⟨front ++ prev :: ys, t⟩, prev.vmEnd, k⟩) := by
  have hk := I.valid.le_roundUp
  have hys := (sorted_middle.mp I.sorted).2.2
  have I' : ProtectInv l (⟨front ++ prev :: ys, t⟩ : ExecContext P) k := ⟨I.sorted, I.count, I.valid⟩
  have A := I'.activation prot prev.vmEnd
  generalize protectBody prot ⟨⟨front ++ prev :: ys, t⟩, prev.vmEnd, k⟩ = o at A
  cases A with
  | refused h =>
    have henter (hcov : Covered ys prev.vmEnd (prev.vmEnd + k.toNat))
        (hend : prev.vmEnd + (roundUp k).toNat ≤ H.mmapAreaEnd) :
        ∃ cur, ys = [cur] ∧ cur.vmEnd < prev.vmEnd + (roundUp k).toNat := by
      obtain ⟨cur, rest, rfl, E⟩ := enters_behind I.sorted I.flags I.count I.valid hcov
        ⟨I.start_le, hend⟩
      obtain ⟨hlt, rfl⟩ := h _ _ _ E
      exact ⟨cur, rfl, hlt⟩
    refine .refused (fun a e hr => ?_) ?_
    · obtain ⟨hcov, hle, heu⟩ := hr.covered hys I.valid
      obtain ⟨cur, rfl, hlt⟩ := henter (fun x hx hx' => hcov x hx (by omega)) (hle.trans heu)
      cases hr with
      | last _ hle => omega
      | next _ _ hr => cases hr
    · rintro ⟨cur, rest, rfl, hrest, hcov, hlt, hend⟩
      obtain ⟨_, h, _⟩ := henter hcov hend
      exact hrest (List.cons.inj h).2
  | last E hle =>
    obtain ⟨rfl, rfl, hstart⟩ := E.toAreaAt.behind I.sorted
    exact .last rfl hstart hle
  | more E hlt hrest hprev hflags hpaint hcount hkeep hjoin =>
    obtain ⟨rfl, rfl, hstart⟩ := E.toAreaAt.behind I.sorted
    rw [protectRest_eq E.lt_end.le hlt I.valid]
    have hshort := hjoin hstart (by simp [joinPrev_behind hstart.symm I.flags])
    refine .more rfl hstart hlt ?_ hprev ?_ (by simp at *; omega) fun x hx => ?_
    · exact ⟨_, _, rfl, hrest, (covered_behind I.sorted).mp E.covered, hlt, E.region.2⟩
    · have := E.lt_end
      exact ⟨hpaint.sorted I.sorted E.lt_end, hcount, I.valid.behind E.lt_end.le hlt, hflags,
        by have := I.start_le; omega⟩
    · rw [hpaint.coverage_eq I.sorted E.lt_end, if_neg (by omega)]

/-- Self-calls that reach the end of the range succeed and update the pages of its last area. -/
theorem BehindInv.returns_of_reaches {t : P.Table} (I : BehindInv H l front prev ys prot k)
    (hr : Reaches ys p k a e) (hp : prev.vmEnd = p) :
    ∃ vms, Returns (protectBody prot) ⟨⟨front ++ prev :: ys, t⟩, p, k⟩
      (0, ⟨vms, P.updateMap t a prot (e - a : Nat)⟩) := by
  induction hr generalizing front prev with
  | @last b ys p k hb hle =>
    subst hp
    have B := I.behind t
    generalize ho : protectBody prot ⟨⟨front ++ prev :: b :: ys, t⟩, prev.vmEnd, k⟩ = o at B
    cases B with
    | refused h => exact (h _ _ (.last hb hle)).elim
    | @last _ _ vms =>
      refine ⟨vms, .ret ?_⟩
      have := I.valid.roundUp.1
      rw [ho, show (prev.vmEnd + (roundUp k).toNat - prev.vmEnd : Nat) = roundUp k by omega]
    | more h _ hlt =>
      cases h
      omega
  | @next b ys p k a e hb hlt hr ih =>
    subst hp
    have B := I.behind t
    generalize ho : protectBody prot ⟨⟨front ++ prev :: b :: ys, t⟩, prev.vmEnd, k⟩ = o at B
    cases B with
    | refused h => exact (h _ _ (.next hb hlt hr)).elim
    | last h _ hle =>
      cases h
      omega
    | more h _ _ _ hprev I' =>
      cases h
      obtain ⟨vms, hret⟩ := ih I' hprev
      exact ⟨vms, .call ho hret⟩

/-- Self-calls that do not reach the end of the range fail, after joining the areas they got
past with `prev`. -/
theorem BehindInv.returns_of_not_reaches {t : P.Table} (I : BehindInv H l front prev ys prot k)
    (hr : ∀ a e, ¬Reaches ys prev.vmEnd k a e) :
    ∃ vms, Returns (protectBody prot) ⟨⟨front ++ prev :: ys, t⟩, prev.vmEnd, k⟩ (-1, ⟨vms, t⟩) ∧
      vms.length ≤ (front ++ prev :: ys).length ∧
      (∀ x, x < prev.vmEnd → coverage vms x = coverage (front ++ prev :: ys) x) ∧
      (¬Advances H ys prev.vmEnd k → vms = front ++ prev :: ys) ∧
      (Advances H ys prev.vmEnd k → vms.length < (front ++ prev :: ys).length) := by
  have refused : ∀ {front prev ys k}, ¬Advances H ys prev.vmEnd k →
      protectBody prot ⟨⟨front ++ prev :: ys, t⟩, prev.vmEnd, k⟩ =
        .ret (-1, ⟨front ++ prev :: ys, t⟩) →
      ∃ vms, Returns (protectBody prot) ⟨⟨front ++ prev :: ys, t⟩, prev.vmEnd, k⟩ (-1, ⟨vms, t⟩) ∧
        vms.length ≤ (front ++ prev :: ys).length ∧
        (∀ x, x < prev.vmEnd → coverage vms x = coverage (front ++ prev :: ys) x) ∧
        (¬Advances H ys prev.vmEnd k → vms = front ++ prev :: ys) ∧
        (Advances H ys prev.vmEnd k → vms.length < (front ++ prev :: ys).length) :=
    fun h ho => ⟨_, .ret ho, le_rfl, fun _ _ => rfl, fun _ => rfl, fun h' => (h h').elim⟩
  induction ys generalizing front prev k with
  | nil =>
    have B := I.behind t
    generalize ho : protectBody prot ⟨⟨front ++ prev :: [], t⟩, prev.vmEnd, k⟩ = o at B
    cases B with
    | refused _ h => exact refused h ho
    | last h => cases h
    | more h => cases h
  | cons b ys ih =>
    have B := I.behind t
    generalize ho : protectBody prot ⟨⟨front ++ prev :: b :: ys, t⟩, prev.vmEnd, k⟩ = o at B
    cases B with
    | refused _ h => exact refused h ho
    | last h hb hle =>
      cases h
      exact (hr _ _ (.last hb hle)).elim
    | more h hb hlt hadv hprev I' hlen hcov =>
      cases h
      obtain ⟨vms, hret, hlen', hcov', _⟩ := ih I' fun a e hr' => hr a e (.next hb hlt (hprev ▸ hr'))
      refine ⟨vms, .call ho (hprev ▸ hret), by omega, fun x hx => ?_, fun h => (h hadv).elim,
        fun _ => by omega⟩
      have := (I.sorted.bounds (p := b) (by simp)).2.1
      rw [hcov' x (by omega), hcov x hx]

/-! ## The whole call -/

/-- The results of `vm_area_mprotect` on a range that ends, rounded up, at `e`. -/
inductive ProtectOutcome (c : ExecContext P) (prot : BitVec 32) (addr : Nat) (length : Int)
    (e : Nat) : Int × ExecContext P → Prop where
  /-- The first activation refuses. -/
  | refused : (∀ before cur rest, Enters H c.vmArea prot addr length e before cur rest →
      cur.vmEnd < e ∧ rest = []) →
      ProtectOutcome c prot addr length e (-1, c)
  /-- The range lies in one area. -/
  | last {before rest vms : List VmArea} {cur : VmArea} :
      Enters H c.vmArea prot addr length e before cur rest → e ≤ cur.vmEnd →
      ProtectOutcome c prot addr length e (0, ⟨vms, P.updateMap c.pgd addr prot (roundUp length)⟩)
  /-- The self-calls reach the end of the range. -/
  | more {before rest vms : List VmArea} {cur : VmArea} {a e' : Nat} :
      Enters H c.vmArea prot addr length e before cur rest → cur.vmEnd < e →
      Reaches rest cur.vmEnd (e - cur.vmEnd : Nat) a e' →
      ProtectOutcome c prot addr length e (0, ⟨vms, P.updateMap c.pgd a prot (e' - a : Nat)⟩)
  /-- A self-call refuses. -/
  | failed {before rest vms : List VmArea} {cur : VmArea} :
      Enters H c.vmArea prot addr length e before cur rest → cur.vmEnd < e → rest ≠ [] →
      (∀ a e', ¬Reaches rest cur.vmEnd (e - cur.vmEnd : Nat) a e') →
      (vms = c.vmArea ↔
        Keeps before cur prot addr ∧ ¬Advances H rest cur.vmEnd (e - cur.vmEnd : Nat)) →
      ProtectOutcome c prot addr length e (-1, ⟨vms, c.pgd⟩)

theorem VmAreaMprotect.outcome (h : VmAreaMprotect c addr length prot r c')
    (I : ProtectInv l c length) :
    ProtectOutcome c prot addr length (addr + (roundUp length).toNat) (r, c') := by
  have A := I.activation prot addr
  generalize ho : protectBody prot ⟨c, addr, length⟩ = o at A
  cases A with
  | refused hno =>
    rw [(Returns.ret_iff ho).mp h]
    exact .refused hno
  | last E hle =>
    rw [(Returns.ret_iff ho).mp h]
    exact .last E hle
  | @more before rest front cur prev E hlt hrest hprev hflags hpaint hcount hkeep hjoin =>
    rw [protectRest_eq E.lt_end.le hlt I.valid] at ho
    have hret := (Returns.call_iff ho).mp h
    have B := I.behindInv E hlt hprev hflags hpaint hcount
    by_cases hr : ∃ a e, Reaches rest cur.vmEnd (addr + (roundUp length).toNat - cur.vmEnd : Nat) a e
    · obtain ⟨a, e', hr⟩ := hr
      obtain ⟨vms, hret'⟩ := B.returns_of_reaches (t := c.pgd) hr hprev
      rw [hret.det hret']
      exact .more E hlt hr
    · have hr : ∀ a e, ¬Reaches rest cur.vmEnd (addr + (roundUp length).toNat - cur.vmEnd : Nat) a e :=
        fun a e h => hr ⟨a, e, h⟩
      obtain ⟨vms, hret', hlen, hcov, hsame, hless⟩ :=
        B.returns_of_not_reaches (t := c.pgd) (hprev ▸ hr)
      rw [hprev] at hret' hcov hsame hless
      rw [hret.det hret']
      refine .failed E hlt hrest hr ⟨fun hvms => ?_, fun ⟨hk, ha⟩ => ?_⟩
      · have hlist : c.vmArea.length = before.length + rest.length + 1 := by simp [E.split]; omega
        have hcount' : (front ++ prev :: rest).length = front.length + rest.length + 1 := by
          simp
          omega
        have hkeeps : Keeps before cur prot addr := by
          refine ⟨?_, fun hstart => by_contra fun hp => ?_⟩
          · -- otherwise the flags of `addr` are other than before
            have := hcov addr E.lt_end
            rw [hvms, hpaint.coverage_eq I.sorted E.lt_end, if_pos ⟨le_rfl, E.lt_end⟩,
              E.coverage_eq I.sorted E.start_le E.lt_end] at this
            exact Option.some.inj this
          · have := hjoin hstart hp
            rw [hvms] at hlen
            omega
        refine ⟨hkeeps, fun ha => ?_⟩
        have hshort := hless ha
        have := congrArg List.length (hkeep hkeeps)
        simp only [List.length_append, List.length_singleton] at this
        rw [hvms] at hshort
        omega
      · rw [hsame ha, E.split, ← List.singleton_append, ← List.append_assoc, hkeep hk]
        simp

/-! ## Whole pages -/

theorem Sorted.eq_of_mem {x : Nat} (hs : Sorted l vms u) (hb : b ∈ vms) (hcur : cur ∈ vms)
    (h : b.vmStart ≤ x ∧ x < b.vmEnd) (h' : cur.vmStart ≤ x ∧ x < cur.vmEnd) : b = cur := by
  obtain ⟨_, _, hat⟩ := exists_areaAt hb h.1 h.2
  obtain ⟨_, _, hat'⟩ := exists_areaAt hcur h'.1 h'.2
  exact (hat'.unique hat hs).2.1

/-- On whole pages a call leaves the page table alone, if it does not get past its checks or finds
a hole, or it updates the part of its range in the area that the range ends in. -/
theorem VmAreaMprotect.updates (h : VmAreaMprotect c addr length prot r c')
    (hs : Sorted l c.vmArea H.mmapAreaEnd) (hal : Aligned c.vmArea) (haddr : 4096 ∣ addr)
    (hv : ValidLength length) :
    (r = -1 ∧ c'.pgd = c.pgd ∧ ∀ before cur rest,
      Enters H c.vmArea prot addr length (addr + byteLength length) before cur rest →
      ¬Covered c.vmArea addr (addr + byteLength length)) ∨
    ∃ before cur rest b, r = 0 ∧
      Enters H c.vmArea prot addr length (addr + byteLength length) before cur rest ∧
      Covered c.vmArea addr (addr + byteLength length) ∧ b ∈ c.vmArea ∧
      b.vmStart < addr + byteLength length ∧ addr + byteLength length ≤ b.vmEnd ∧
      c'.pgd = P.updateMap c.pgd (max addr b.vmStart) prot
        (addr + byteLength length - max addr b.vmStart : Nat) := by
  obtain ⟨hround, -, -, hdvd⟩ := hv.bytes
  obtain ⟨hpos, -⟩ := id hv
  have hle := hv.le_roundUp
  by_cases hc : 128 < c.vmArea.length
  · obtain ⟨rfl, rfl⟩ := Prod.mk.inj ((Returns.ret_iff (protectBody_full hc)).mp h)
    refine .inl ⟨rfl, rfl, fun _ _ _ E _ => ?_⟩
    have := E.room
    omega
  have covered {before cur rest}
      (E : Enters H c.vmArea prot addr length (addr + byteLength length) before cur rest) :
      Covered c.vmArea addr (addr + byteLength length) :=
    E.covered.round hal (by omega) (Nat.dvd_add haddr hdvd) (by omega)
  cases h.outcome ⟨hs, Nat.le_of_not_lt hc, hv⟩ with
  | refused hno =>
    refine .inl ⟨rfl, rfl, fun _ _ _ E hcov => ?_⟩
    obtain ⟨hlt, rfl⟩ := hno _ _ _ E
    exact hlt.not_ge (E.le_of_covered hs hcov)
  | @last before rest vms cur E hend =>
    have hstart := E.start_le
    refine .inr ⟨_, _, _, cur, rfl, E, covered E, E.mem, by omega, hend, ?_⟩
    rw [Nat.max_eq_left hstart, Nat.add_sub_cancel_left, hround]
  | @more before rest vms cur a e' E hlt hr =>
    have hcur := (hal cur E.mem).2
    obtain ⟨he, b, hb, rfl, hpa, hae, hend⟩ := hr.last_area (sorted_middle.mp (E.split ▸ hs)).2.2
      (fun p hp => hal p (by simp [E.split, hp])) hcur (hv.behind E.lt_end.le hlt) (by omega)
    obtain rfl : e' = addr + byteLength length := by omega
    have hlast := E.lt_end
    refine .inr ⟨_, _, _, b, rfl, E, covered E, by simp [E.split, hb], hae, hend, ?_⟩
    rw [Nat.max_eq_right (by omega)]
  | failed E hlt _ hno =>
    refine .inl ⟨rfl, rfl, fun _ _ _ _ hcov => ?_⟩
    obtain ⟨a, hr⟩ := E.reaches hs hal haddr hv hcov hlt
    exact hno _ _ hr

end CS330
