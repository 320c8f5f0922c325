import Mathlib.Data.List.Basic
import Mathlib.Logic.Function.Basic

namespace multiplex

variable {Sender α β : Type} [DecidableEq Sender]

/-- What one sender has put into a sequence that several share. -/
def part (sender : Sender) (shared : List (Sender × α)) : List α :=
  (shared.filter fun item => item.1 = sender).map Prod.snd

/-- The sequence holds what the senders have put in, each in its own order, and nothing else. -/
def Interleaves (shared : List (Sender × α)) (own : Sender → List α) : Prop :=
  ∀ sender, part sender shared = own sender

theorem part_cons_self (sender : Sender) (a : α) (shared : List (Sender × α)) :
    part sender ((sender, a) :: shared) = a :: part sender shared := by
  unfold part
  rw [List.filter_cons_of_pos (by simp)]
  rfl

theorem part_cons_of_ne {sender other : Sender} (hne : other ≠ sender) (a : α)
    (shared : List (Sender × α)) : part sender ((other, a) :: shared) = part sender shared := by
  unfold part
  rw [List.filter_cons_of_neg (by simpa using hne)]

/-- A shared sequence can be taken apart again when everything in it can be read, and what is read
names its sender. -/
theorem Interleaves.demultiplex {read : α → Option β} {sender_of : β → Sender}
    {shared : List (Sender × α)} {own : Sender → List α} {meant : Sender → List β}
    (hshared : Interleaves shared own)
    (hread : ∀ sender, (own sender).map read = (meant sender).map some)
    (hsender : ∀ sender, ∀ b ∈ meant sender, sender_of b = sender) :
    ∃ arrived : List β, shared.map (fun item => read item.2) = arrived.map some ∧
      ∀ sender, arrived.filter (fun b => sender_of b = sender) = meant sender := by
  induction shared generalizing own meant with
  | nil =>
    refine ⟨[], rfl, fun sender => ?_⟩
    have hnone := hread sender
    rw [← hshared sender] at hnone
    exact (List.map_eq_nil_iff.mp hnone.symm).symm
  | cons item shared ih =>
    obtain ⟨first, a⟩ := item
    have hfirst := hread first
    rw [← hshared first, part_cons_self, List.map_cons] at hfirst
    cases hmeant : meant first with
    | nil =>
      rw [hmeant] at hfirst
      cases hfirst
    | cons b rest =>
      rw [hmeant, List.map_cons, List.cons.injEq] at hfirst
      obtain ⟨ha, hrest⟩ := hfirst
      have hread' : ∀ sender, (part sender shared).map read =
          (Function.update meant first rest sender).map some := by
        intro sender
        by_cases hown : sender = first
        · subst hown
          rw [Function.update_self]
          exact hrest
        · rw [Function.update_of_ne hown, ← hread, ← hshared, part_cons_of_ne (Ne.symm hown)]
      have hsender' : ∀ sender, ∀ b' ∈ Function.update meant first rest sender, sender_of b' = sender := by
        intro sender b' hb'
        by_cases hown : sender = first
        · subst hown
          rw [Function.update_self] at hb'
          exact hsender sender b' (by rw [hmeant]; exact List.mem_cons_of_mem _ hb')
        · rw [Function.update_of_ne hown] at hb'
          exact hsender sender b' hb'
      obtain ⟨arrived, harrived, hparts⟩ := ih (fun _ => rfl) hread' hsender'
      have hb : sender_of b = first := hsender first b (by rw [hmeant]; exact List.mem_cons_self)
      refine ⟨b :: arrived, by rw [List.map_cons, List.map_cons, ha, harrived], fun sender => ?_⟩
      by_cases hown : sender = first
      · subst hown
        rw [List.filter_cons_of_pos (by simpa using hb), hparts, Function.update_self, hmeant]
      · rw [List.filter_cons_of_neg (by simpa [hb] using Ne.symm hown), hparts,
          Function.update_of_ne hown]

end multiplex
