import CommandLink.Proofs.Ring.Contents

namespace CommandLink.Ring

variable {n : Nat}

/-- Octets that are lost when octets are offered one by one. Each that meets a
full queue costs one octet: itself if it is refused, and else the oldest. -/
def lost (r : Ring n) : List UInt8 → Nat
  | [] => 0
  | b :: bs => (if r.isFull then 1 else 0) + ((r.push? b).getD r).lost bs

theorem isFull_eq (r : Ring n) : r.isFull = true ↔ r.len = n := by rw [isFull, decide_eq_true_eq]

theorem len_push {r r' : Ring n} (h : r.Inv) {b : UInt8} (hp : r.push? b = some r') :
    r'.len + (if r.isFull then 1 else 0) = r.len + 1 := by
  have hlen := length_toList h
  have hpushed := pushed h b
  rw [hp] at hpushed
  cases hpushed with
  | displaced _ hfull _ hlist hinv _ =>
    have hpos := h.pos
    rw [← length_toList hinv, hlist, List.length_append, List.length_tail, hlen,
      if_pos (r.isFull_eq.mpr hfull), List.length_singleton]
    omega
  | stored _ hroom hlist hinv _ =>
    have hnot : ¬r.isFull = true := fun hf => Nat.ne_of_lt hroom (r.isFull_eq.mp hf)
    rw [← length_toList hinv, hlist, List.length_append, hlen, if_neg hnot, List.length_singleton]

/-- Octets that were offered are in the queue or lost, and so are those that were
in the queue before. -/
theorem len_offer_add_lost {r : Ring n} (h : r.Inv) (bs : List UInt8) :
    (r.offer bs).2.len + r.lost bs = r.len + bs.length := by
  induction bs generalizing r with
  | nil => rfl
  | cons b bs ih =>
    have hpushed := pushed h b
    rw [lost, List.length_cons]
    cases hp : r.push? b with
    | none =>
      rw [hp] at hpushed
      cases hpushed with
      | refused hfull _ =>
        have hi := ih h
        rw [offer_none hp, Option.getD_none, if_pos (r.isFull_eq.mpr hfull)]
        omega
    | some r' =>
      have hinv : r'.Inv := by
        rw [hp] at hpushed
        cases hpushed with
        | displaced _ _ _ _ hinv _ | stored _ _ _ hinv _ => exact hinv
      have hi := ih hinv
      have hl := len_push h hp
      rw [offer_some hp, Option.getD_some]
      dsimp only
      omega

theorem lost_append {r : Ring n} (h : r.Inv) (bs bs' : List UInt8) :
    r.lost (bs ++ bs') = r.lost bs + (r.offer bs).2.lost bs' := by
  have hfirst := len_offer_add_lost h bs
  have hsecond := len_offer_add_lost (inv_offer h bs).1 bs'
  have hwhole := len_offer_add_lost h (bs ++ bs')
  rw [offer_append, List.length_append] at hwhole
  dsimp only at hwhole
  omega

/-- What is counted as dropped, from the lengths before and behind a burst and the
number of octets stored, is what is lost one by one. -/
theorem dropped_eq_lost {r : Ring n} (h : r.Inv) (bs : List UInt8) :
    bs.length - (r.offer bs).1 + (r.len + (r.offer bs).1 - (r.offer bs).2.len) = r.lost bs := by
  have hsum := len_offer_add_lost h bs
  have hle := h.len_le
  have hle' := (inv_offer h bs).1.len_le
  cases hr : r.overwrite with
  | false =>
    have hs := (offer_refusing h hr bs).2
    have hlen := length_toList (inv_offer h bs).1
    rw [(offer_refusing h hr bs).1, List.length_take, List.length_append, length_toList h] at hlen
    omega
  | true =>
    have hs := (offer_displacing h hr bs).2
    omega

end CommandLink.Ring
