import CS330.Lib.Interleaving
import Mathlib.Data.List.Sort

/-! # Tickets

Customers ask for keys. Each gets the next number of an increasing sequence, and is let in when
nobody on the board has the same key and a smaller number. So there is at most one customer for a
key inside, and the customers for a key are let in in the order of their numbers. -/

namespace CS330

/-- What is known of a customer on the board. -/
structure Ticket (κ τ : Type*) where
  key : κ
  number : τ
  inside : Bool

/-- The customers on the board, the tickets that were issued, and those that were let in. -/
structure TicketBoard (ι κ τ : Type*) where
  board : ι → Option (Ticket κ τ)
  issued : List (κ × τ)
  admitted : List (κ × τ)

section
variable {κ τ : Type*} [DecidableEq κ]

/-- The numbers of the tickets for `key`. -/
def numbersOf (key : κ) (tickets : List (κ × τ)) : List τ :=
  (tickets.filter (·.1 = key)).map Prod.snd

theorem numbersOf_append {key : κ} {as bs : List (κ × τ)} :
    numbersOf key (as ++ bs) = numbersOf key as ++ numbersOf key bs := by
  simp [numbersOf]

theorem numbersOf_singleton {key key' : κ} {number : τ} :
    numbersOf key [(key', number)] = if key' = key then [number] else [] := by
  by_cases h : key' = key <;> simp [numbersOf, h]

theorem mem_numbersOf {key : κ} {number : τ} {tickets : List (κ × τ)} :
    number ∈ numbersOf key tickets ↔ (key, number) ∈ tickets := by
  simp [numbersOf]

end

variable {ι κ τ : Type*} [DecidableEq κ] [LinearOrder τ]

namespace TicketBoard

inductive Step [DecidableEq ι] (b : TicketBoard ι κ τ) : TicketBoard ι κ τ → Prop where
  | issue {i : ι} {key : κ} {number : τ} (hi : b.board i = none)
    (hnew : ∀ ticket ∈ b.issued, ticket.2 < number) :
    Step b ⟨Function.update b.board i (some ⟨key, number, false⟩), b.issued ++ [(key, number)],
      b.admitted⟩
  | letIn {i : ι} {key : κ} {number : τ} (hi : b.board i = some ⟨key, number, false⟩)
    (hfirst : ∀ i' ticket, i' ≠ i → b.board i' = some ticket → ticket.key = key →
      ¬ticket.number < number) :
    Step b ⟨Function.update b.board i (some ⟨key, number, true⟩), b.issued,
      b.admitted ++ [(key, number)]⟩
  | leave {i : ι} {key : κ} {number : τ} (hi : b.board i = some ⟨key, number, true⟩) :
    Step b ⟨Function.update b.board i none, b.issued, b.admitted⟩

/-- The invariant of a board. -/
structure Orderly (b : TicketBoard ι κ τ) : Prop where
  sorted : b.issued.Pairwise (·.2 < ·.2)
  mem_issued : ∀ {i ticket}, b.board i = some ticket → (ticket.key, ticket.number) ∈ b.issued
  distinct : ∀ {i i' ticket ticket'}, b.board i = some ticket → b.board i' = some ticket' →
    ticket.number = ticket'.number → i = i'
  first : ∀ {i i' ticket ticket'}, b.board i = some ticket → ticket.inside = true →
    b.board i' = some ticket' → ticket'.key = ticket.key → i' ≠ i → ticket.number < ticket'.number
  /-- The tickets for a key that were let in, and behind them those that wait. -/
  queue : ∀ key, ∃ waiting, numbersOf key b.issued = numbersOf key b.admitted ++ waiting ∧
    ∀ number, number ∈ waiting ↔ ∃ i, b.board i = some ⟨key, number, false⟩

namespace Orderly

variable {b b' : TicketBoard ι κ τ} {i i' : ι} {key : κ} {number : τ} {ticket ticket' : Ticket κ τ}

theorem init : Orderly (⟨fun _ => none, [], []⟩ : TicketBoard ι κ τ) where
  sorted := .nil
  mem_issued := nofun
  distinct := nofun
  first := nofun
  queue key := ⟨[], rfl, by simp⟩

/-- The numbers for a key were issued in increasing order. -/
theorem sorted_numbersOf (O : Orderly b) (key : κ) : (numbersOf key b.issued).Pairwise (· < ·) :=
  List.pairwise_map.2 (O.sorted.sublist List.filter_sublist)

/-- At most one customer for a key is inside. -/
theorem exclusive (O : Orderly b) (h : b.board i = some ticket) (h' : b.board i' = some ticket')
    (hin : ticket.inside = true) (hin' : ticket'.inside = true) (hkey : ticket.key = ticket'.key) :
    i = i' := by
  by_contra hne
  have hlt := O.first h hin h' hkey.symm (Ne.symm hne)
  exact lt_asymm hlt (O.first h' hin' h hkey hne)

/-- The customers for a key are let in in the order of their numbers. -/
theorem admitted_initial (O : Orderly b) (key : κ) :
    numbersOf key b.admitted <+: numbersOf key b.issued := by
  obtain ⟨waiting, heq, -⟩ := O.queue key
  exact ⟨waiting, heq.symm⟩

/-- A customer that waits has not been let in. -/
theorem notMem_admitted (O : Orderly b) (hi : b.board i = some ⟨key, number, false⟩) :
    (key, number) ∉ b.admitted := by
  intro hmem
  obtain ⟨waiting, heq, hiff⟩ := O.queue key
  have hsorted := O.sorted_numbersOf key
  rw [heq, List.pairwise_append] at hsorted
  have hlt := hsorted.2.2 number (mem_numbersOf.2 hmem) number ((hiff number).2 ⟨i, hi⟩)
  exact lt_irrefl _ hlt

/-- When nobody waits, everybody has been let in. -/
theorem numbersOf_eq (O : Orderly b) (hnone : ∀ i, b.board i = none) (key : κ) :
    numbersOf key b.issued = numbersOf key b.admitted := by
  obtain ⟨waiting, heq, hiff⟩ := O.queue key
  have hempty : waiting = [] := List.eq_nil_iff_forall_not_mem.2 fun number hmem => by
    obtain ⟨i, hi⟩ := (hiff number).1 hmem
    cases (hnone i).symm.trans hi
  rw [heq, hempty, List.append_nil]

/-- Whoever is first in the queue for a key is not kept waiting by anybody. -/
theorem head_eq (O : Orderly b) {waiting : List τ} {head : τ}
    (heq : numbersOf key b.issued = numbersOf key b.admitted ++ head :: waiting)
    (hmem : ∀ number, number ∈ head :: waiting ↔ ∃ i, b.board i = some ⟨key, number, false⟩)
    (hi : b.board i = some ⟨key, number, false⟩)
    (hfirst : ∀ i' ticket, i' ≠ i → b.board i' = some ticket → ticket.key = key →
      ¬ticket.number < number) : head = number := by
  obtain ⟨i', hi'⟩ := (hmem head).1 List.mem_cons_self
  have hsorted := O.sorted_numbersOf key
  rw [heq, List.pairwise_append] at hsorted
  have hle : head ≤ number := by
    rcases List.mem_cons.1 ((hmem number).2 ⟨i, hi⟩) with rfl | hmem
    · exact le_rfl
    · exact ((List.pairwise_cons.1 hsorted.2.1).1 number hmem).le
  rcases eq_or_ne i' i with rfl | hne
  · cases hi.symm.trans hi'
    rfl
  · exact le_antisymm hle (not_lt.1 (hfirst i' _ hne hi' rfl))

section
variable [DecidableEq ι]

theorem issue (O : Orderly b) (hi : b.board i = none)
    (hnew : ∀ ticket ∈ b.issued, ticket.2 < number) :
    Orderly ⟨Function.update b.board i (some ⟨key, number, false⟩), b.issued ++ [(key, number)],
      b.admitted⟩ := by
  have hless {i' : ι} {ticket : Ticket κ τ} (h : b.board i' = some ticket) :
      ticket.number < number := hnew _ (O.mem_issued h)
  constructor
  case sorted =>
    refine List.pairwise_append.2 ⟨O.sorted, List.pairwise_singleton .., fun x hx y hy => ?_⟩
    rw [List.mem_singleton.1 hy]
    exact hnew x hx
  case mem_issued =>
    intro i' ticket h
    rcases update_eq_iff.1 h with ⟨-, ⟨⟩⟩ | ⟨-, h⟩
    · exact List.mem_append_right _ List.mem_cons_self
    · exact List.mem_append_left _ (O.mem_issued h)
  case distinct =>
    intro a a' ticket ticket' h h' heq
    rcases update_eq_iff.1 h with ⟨hi, ⟨⟩⟩ | ⟨-, hb⟩ <;>
      rcases update_eq_iff.1 h' with ⟨hi', ⟨⟩⟩ | ⟨-, hb'⟩
    · exact hi.trans hi'.symm
    · exact ((hless hb').ne' heq).elim
    · exact ((hless hb).ne heq).elim
    · exact O.distinct hb hb' heq
  case first =>
    intro a a' ticket ticket' h hin h' hkey hne
    rcases update_eq_iff.1 h with ⟨-, ⟨⟩⟩ | ⟨-, h⟩
    · cases hin
    · rcases update_eq_iff.1 h' with ⟨-, ⟨⟩⟩ | ⟨-, h'⟩
      · exact hless h
      · exact O.first h hin h' hkey hne
  case queue =>
    intro key'
    obtain ⟨waiting, heq, hmem⟩ := O.queue key'
    refine ⟨waiting ++ numbersOf key' [(key, number)], ?_, fun number' => ?_⟩
    · rw [numbersOf_append, heq, List.append_assoc]
    · simp only [List.mem_append, hmem, mem_numbersOf, List.mem_singleton, Prod.mk.injEq,
        update_eq_iff]
      constructor
      · rintro (⟨i', hi'⟩ | ⟨rfl, rfl⟩)
        · refine ⟨i', .inr ⟨?_, hi'⟩⟩
          rintro rfl
          cases hi.symm.trans hi'
        · exact ⟨i, .inl ⟨rfl, rfl⟩⟩
      · rintro ⟨i', ⟨-, ⟨⟩⟩ | ⟨-, hi'⟩⟩
        · exact .inr ⟨rfl, rfl⟩
        · exact .inl ⟨i', hi'⟩

theorem letIn (O : Orderly b) (hi : b.board i = some ⟨key, number, false⟩)
    (hfirst : ∀ i' ticket, i' ≠ i → b.board i' = some ticket → ticket.key = key →
      ¬ticket.number < number) :
    Orderly ⟨Function.update b.board i (some ⟨key, number, true⟩), b.issued,
      b.admitted ++ [(key, number)]⟩ := by
  -- only the customer's being inside is new
  have hold {i' : ι} {ticket : Ticket κ τ}
      (h : Function.update b.board i (some ⟨key, number, true⟩) i' = some ticket) :
      ∃ inside, b.board i' = some ⟨ticket.key, ticket.number, inside⟩ := by
    rcases update_eq_iff.1 h with ⟨rfl, ⟨⟩⟩ | ⟨-, h⟩
    · exact ⟨_, hi⟩
    · exact ⟨_, h⟩
  constructor
  case sorted => exact O.sorted
  case mem_issued =>
    intro i' ticket h
    obtain ⟨inside, h⟩ := hold h
    have hmem := O.mem_issued h
    exact hmem
  case distinct =>
    intro a a' ticket ticket' h h' heq
    obtain ⟨_, h⟩ := hold h
    obtain ⟨_, h'⟩ := hold h'
    exact O.distinct h h' heq
  case first =>
    intro a a' ticket ticket' h hin h' hkey hne
    obtain ⟨_, h₀'⟩ := hold h'
    rcases update_eq_iff.1 h with ⟨rfl, ⟨⟩⟩ | ⟨-, h⟩
    · have hnot : ¬ticket'.number < number := by
        have hnot := hfirst a' _ hne h₀' hkey
        exact hnot
      exact lt_of_le_of_ne (not_lt.1 hnot) fun heq => hne (O.distinct hi h₀' heq).symm
    · have hlt := O.first h hin h₀' hkey hne
      exact hlt
  case queue =>
    intro key'
    obtain ⟨waiting, heq, hmem⟩ := O.queue key'
    by_cases hkey : key = key'
    · subst hkey
      have hin : number ∈ waiting := (hmem number).2 ⟨i, hi⟩
      obtain _ | ⟨head, waiting⟩ := waiting
      · cases hin
      obtain rfl := O.head_eq heq hmem hi hfirst
      refine ⟨waiting, ?_, fun number' => ?_⟩
      · rw [numbersOf_append, numbersOf_singleton, if_pos rfl, heq, List.append_assoc,
          List.singleton_append]
      · have hsorted := O.sorted_numbersOf key
        rw [heq, List.pairwise_append, List.pairwise_cons] at hsorted
        constructor
        · intro h
          obtain ⟨i', hi'⟩ := (hmem number').1 (List.mem_cons_of_mem _ h)
          refine ⟨i', update_eq_iff.2 (.inr ⟨?_, hi'⟩)⟩
          rintro rfl
          cases hi.symm.trans hi'
          exact lt_irrefl _ (hsorted.2.1.1 _ h)
        · rintro ⟨i', h⟩
          rcases update_eq_iff.1 h with ⟨-, ⟨⟩⟩ | ⟨hne, hi'⟩
          refine (List.mem_cons.1 ((hmem number').2 ⟨i', hi'⟩)).resolve_left ?_
          rintro rfl
          exact hne (O.distinct hi' hi rfl)
    · refine ⟨waiting, ?_, fun number' => ?_⟩
      · rw [numbersOf_append, numbersOf_singleton, if_neg hkey, List.append_nil, heq]
      · rw [hmem]
        refine exists_congr fun i' => ?_
        rw [update_eq_iff]
        constructor
        · intro h
          refine .inr ⟨?_, h⟩
          rintro rfl
          cases hi.symm.trans h
          exact hkey rfl
        · rintro (⟨-, ⟨⟩⟩ | ⟨-, h⟩)
          exact h

theorem leave (O : Orderly b) (hi : b.board i = some ⟨key, number, true⟩) :
    Orderly ⟨Function.update b.board i none, b.issued, b.admitted⟩ := by
  have hold {i' : ι} {ticket : Ticket κ τ}
      (h : Function.update b.board i none i' = some ticket) : b.board i' = some ticket := by
    rcases update_eq_iff.1 h with ⟨-, ⟨⟩⟩ | ⟨-, h⟩
    exact h
  refine ⟨O.sorted, fun h => O.mem_issued (hold h), fun h h' => O.distinct (hold h) (hold h'),
    fun h hin h' => O.first (hold h) hin (hold h'), fun key' => ?_⟩
  obtain ⟨waiting, heq, hmem⟩ := O.queue key'
  refine ⟨waiting, heq, fun number' => ?_⟩
  rw [hmem]
  refine exists_congr fun i' => ⟨fun h => ?_, hold⟩
  refine update_eq_iff.2 (.inr ⟨?_, h⟩)
  rintro rfl
  cases hi.symm.trans h

theorem step (O : Orderly b) (h : b.Step b') : Orderly b' := by
  cases h with
  | issue hi hnew => exact O.issue hi hnew
  | letIn hi hfirst => exact O.letIn hi hfirst
  | leave hi => exact O.leave hi

end

end Orderly

end TicketBoard

end CS330
