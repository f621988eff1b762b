import Mathlib
import Beaver.Multiplier
import Beaver.Proofs.Batching
import Beaver.Proofs.Loops
import Beaver.Proofs.Rectangles
import Beaver.Proofs.Ring.Instances
import Beaver.Proofs.Rows
import Beaver.Proofs.Transfer.Batch

/-!
# Products by transfers

One product takes a transfer for every bit of the receiver's factor.  The pads of the
transfers add up to the sender's share with the sign turned, and the chosen pads, corrected
where a bit is set, add up to the same sum plus the product (`productReceived_eq`).  So the
two ends of a list of products get lists that add up to it (`meets_products`), and with
both directions to the cross products of their lists (`meets_crossProducts`).
-/

namespace Beaver

open List
open ShareRing

theorem BitString.bits_ofBits (bs : List Bool) : (ofBits bs).bits = bs := by
  rw [bits_eq_map (Nat.le_of_eq (wellFormed_ofBits bs).length_bytes.symm)]
  refine ext_getElem (by simp [ofBits]) fun k _ hk => ?_
  simp [ofBits, bit_pack, hk]

/-- What was transferred, by position. -/
theorem Transfer.Transferred.exists_pads {n : Nat} {choice : Nat → Bool} {received : List Block}
    {sent : List (Block × Block)}
    (h : Transferred (.ofBits ((range n).map choice)) received sent) :
    ∃ pad : Nat → Block × Block, sent = (range n).map pad ∧
      received = (range n).map fun k => if choice k then (pad k).2 else (pad k).1 := by
  have hreceived : received.length = n := h.length_received.trans (by simp [BitString.ofBits])
  have hsent : sent.length = n := h.length_sent.trans (by simp [BitString.ofBits])
  have hpad : ∀ k (hk : k < sent.length), (sent[k]?).getD (.zero, .zero) = sent[k] := by
    intro k hk
    rw [getElem?_eq_getElem hk, Option.getD_some]
  refine ⟨fun k => (sent[k]?).getD (.zero, .zero), ?_, ?_⟩
  · refine ext_getElem (by simp [hsent]) fun k hk _ => ?_
    simp [hpad k hk]
  · refine ext_getElem (by simp [hreceived]) fun k hk _ => ?_
    have hk' : k < sent.length := by omega
    have hchoice : (BitString.ofBits ((range n).map choice)).bits[k]? = some (choice k) := by
      rw [BitString.bits_ofBits, getElem?_map, getElem?_range (by omega)]
      rfl
    have hchosen := h.chosen k _ _ hchoice (getElem?_eq_getElem hk')
    rw [getElem?_eq_getElem hk, Option.some_inj] at hchosen
    simp only [getElem_map, getElem_range]
    rw [hchosen, hpad k hk']

namespace Multiplier

section Gilboa

variable {τ : Type} [ShareRing τ]

/-- What the first pads of a product add up to. -/
def padSum (τ : Type) [ShareRing τ] (pad : Nat → Block × Block) : τ :=
  total (bits τ) fun j => basis j * ofBlock (pad j).1

/-- The correction that hides `a` behind the pads of a product. -/
def cover (pad : Nat → Block × Block) (a : τ) : Rectangle τ τ :=
  .ofFn fun j => ofBlock (pad j).1 - ofBlock (pad j).2 + a

theorem productSent_eq (pad : Nat → Block × Block) (a : τ) :
    productSent ((range (bits τ)).map pad) a = .ok (cover pad a, -padSum τ pad) := by
  have hsame : Rectangle.ofRows (replicate (bits τ) a)
      = .ok (.ofFn fun _ => a : Rectangle τ τ) := by
    rw [← Rectangle.ofRows_map_range, map_const', length_range]
  have hfirst : Rectangle.ofBlocks ((range (bits τ)).map ((·.1) ∘ pad))
      = .ok (.ofFn fun j => ofBlock (pad j).1 : Rectangle τ τ) := Rectangle.ofBlocks_map_range _
  have hsecond : Rectangle.ofBlocks ((range (bits τ)).map ((·.2) ∘ pad))
      = .ok (.ofFn fun j => ofBlock (pad j).2 : Rectangle τ τ) := Rectangle.ofBlocks_map_range _
  rw [productSent, map_map, map_map, hfirst, hsecond, hsame]
  simp only [bind, Except.bind, Rectangle.sub_ofFn, Rectangle.add_ofFn, Rectangle.compose_ofFn]
  rfl

/-- **The chosen pads, corrected where a bit is set**, give the sum of the first pads plus
the product. -/
theorem productReceived_eq [LawfulShareRing τ] (pad : Nat → Block × Block) (a b : τ) :
    productReceived ((range (bits τ)).map fun j => if bit b j then (pad j).2 else (pad j).1)
      (cover pad a) b = .ok (padSum τ pad + a * b) := by
  have hterm : ∀ j, (ofBlock (if bit b j then (pad j).2 else (pad j).1)
      + scale (ofBlock (pad j).1 - ofBlock (pad j).2 + a) (bit b j) : τ)
      = ofBlock (pad j).1 + scale a (bit b j) := by
    intro j
    cases bit b j with
    | false => simp [scale]
    | true =>
      simp only [scale, if_true]
      ring
  rw [productReceived, Rectangle.ofBlocks_map_range]
  simp only [bind, Except.bind, cover, Rectangle.addWhere_ofFn, Rectangle.compose_ofFn, hterm]
  rw [Rectangle.compose_addWhere, padSum]

/-- The pads of product number `k`. -/
def padsOf (τ : Type) [ShareRing τ] (pad : Nat → Block × Block) (k : Nat) : Nat → Block × Block :=
  fun j => pad (bits τ * k + j)

theorem flatMap_elementBits (n : Nat) (b : Nat → τ) :
    ((range n).map b).flatMap elementBits
      = (range (n * bits τ)).map fun k => bit (b (k / bits τ)) (k % bits τ) := by
  rw [flatMap_map]
  exact flatMap_map_range n fun k => bit (b k)

theorem productsSent_eq (hbits : 0 < bits τ) (n : Nat) (pad : Nat → Block × Block) (a : Nat → τ) :
    ((batches (bits τ) ((range (n * bits τ)).map pad)).zip ((range n).map a)).mapM
        (fun p => productSent p.1 p.2)
      = .ok ((range n).map fun k => (cover (padsOf τ pad k) (a k), -padSum τ (padsOf τ pad k))) := by
  rw [batches_map_range hbits, zip_map', mapM_map]
  exact mapM_eq_ok fun k _ => productSent_eq (padsOf τ pad k) (a k)

theorem productsReceived_eq [LawfulShareRing τ] (hbits : 0 < bits τ) (n : Nat)
    (pad : Nat → Block × Block) (a b : Nat → τ) :
    ((batches (bits τ) ((range (n * bits τ)).map fun k =>
        if bit (b (k / bits τ)) (k % bits τ) then (pad k).2 else (pad k).1)).zip
        (((range n).map fun k => cover (padsOf τ pad k) (a k)).zip ((range n).map b))).mapM
        (fun p => productReceived p.1 p.2.1 p.2.2)
      = .ok ((range n).map fun k => padSum τ (padsOf τ pad k) + a k * b k) := by
  rw [batches_map_range hbits, zip_map', zip_map', mapM_map]
  refine mapM_eq_ok fun k _ => ?_
  rw [← productReceived_eq, Function.comp_apply]
  dsimp only
  congr 1
  refine map_congr_left fun j hj => ?_
  obtain ⟨hdiv, hmod⟩ := div_mod_batch k (mem_range.mp hj)
  rw [hdiv, hmod, padsOf]

end Gilboa

section Meeting

variable {r : RingName} {μ : Type} {i j n : Nat} {l l' : LinkEnd} {m m' : Multiplier μ}

/-- The multipliers after steps of the left receiver and the right sender. -/
def Transferring (m m' : Multiplier μ) (m₁ m₁' : Multiplier μ) : Prop :=
  ∃ receiver sender, Transfer.Paired receiver sender ∧ m₁ = { m with receiver } ∧
    m₁' = { m' with sender }

theorem meets_transfer (h : Transfer.Paired m.receiver m'.sender) (hl : LinkEnd.Joined i j l l')
    {v : BitString} (hv : v.WellFormed) (hroom : Transfer.HasRoom v.length) (t u : Tape) :
    Meets i j (Succeed fun received sent m₁ m₁' => Transfer.Transferred v received sent ∧
        sent = Transfer.sentBlocks m.receiver.counter m.receiver.zeros m'.sender.delta v ∧
        Transferring m m' m₁ m₁')
      ((receiving (Transfer.Receiver.receive l v)).start m)
      ((sending (Transfer.Sender.send l' v.length)).start m') [] [] t u := by
  have hbatch : Meets i j (Succeed fun received sent r s => Transfer.Transferred v received sent ∧
      sent = Transfer.sentBlocks m.receiver.counter m.receiver.zeros m'.sender.delta v ∧
      Transfer.Paired r s)
      ((Transfer.Receiver.receive l v).start m.receiver)
      ((Transfer.Sender.send l' v.length).start m'.sender) [] [] t u := by
    refine (h.meets_batch hl hv hroom t u).mono ?_
    rintro _ _ _ _ ⟨padded, rfl, rfl⟩
    exact ⟨_, _, _, _, rfl, rfl, Transfer.transferred_blocks _ _ _ hv, rfl, h.after _ padded⟩
  refine hbatch.zoom fun received sent r s hrs => ?_
  exact ⟨hrs.1, hrs.2.1, r, s, hrs.2.2, rfl, rfl⟩

/-- **The two ends of a list of products** get lists that add up to it. -/
theorem meets_products (h : Transfer.Paired m.receiver m'.sender) (hl : LinkEnd.Joined i j l l')
    (a b : Nat → r.Carrier) (hroom : Transfer.HasRoom (n * bits r.Carrier)) (t u : Tape) :
    Meets i j (Succeed fun received sent m₁ m₁' =>
        AddUp received sent ((range n).map fun k => a k * b k) ∧ Transferring m m' m₁ m₁')
      ((multiplyReceiving l ((range n).map b)).start m)
      ((multiplySending l' ((range n).map a)).start m') [] [] t u := by
  obtain ⟨-, -, -, -, -, hword⟩ := hroom.exists_blank
  have hn : n < 2 ^ 64 := by
    have hle := Transfer.length_le_height (n * bits r.Carrier)
    have hmul : n ≤ n * bits r.Carrier := Nat.le_mul_of_pos_right n r.bits_pos
    omega
  have hlength : (BitString.ofBits (((range n).map b).flatMap elementBits)).length
      = n * bits r.Carrier := by
    rw [flatMap_elementBits]
    simp [BitString.ofBits]
  have htransfer := meets_transfer h hl (BitString.wellFormed_ofBits
    (((range n).map b).flatMap elementBits)) (by rwa [hlength]) t u
  rw [hlength] at htransfer
  rw [multiplyReceiving, multiplySending, length_map, length_map, length_range]
  refine htransfer.andThen fun received sent m₁ m₁' t u hafter => ?_
  obtain ⟨htransferred, -, hstates⟩ := hafter
  rw [flatMap_elementBits] at htransferred
  obtain ⟨pad, hsent, rfl⟩ := htransferred.exists_pads
  have hcarries : (Rectangle.wire r.Carrier r.Carrier).list.Carries
      ((range n).map fun k => cover (padsOf r.Carrier pad k) (a k)) := by
    refine .list (fun x hx => ?_) (by simpa using hn)
    obtain ⟨k, -, rfl⟩ := mem_map.mp hx
    exact Rectangle.carries_wire r.bits_lt _
  rw [hsent, productsSent_eq r.bits_pos, Session.start_bind_of_done (Session.start_check_ok _ _),
    map_map, map_map]
  refine Meets.recvList_send hl hcarries (by simp) ?_
  rw [productsReceived_eq r.bits_pos]
  refine .done ⟨_, _, m₁, m₁', rfl, rfl, .of_fn fun k _ => ?_, hstates⟩
  dsimp only [Function.comp_apply]
  ring

end Meeting

end Multiplier

end Beaver
