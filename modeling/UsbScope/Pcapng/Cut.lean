import UsbScope.Pcapng.Blocks

/-! # Blocks that break off

Of a block that it would read, the reader says nothing but that it is cut short,
wherever that happens: no check sees other bytes than it would see in the whole
block. -/
namespace UsbScope.Pcapng
open UsbScope.Lib UsbScope.Common UsbScope.Capture

/-- The texts of an input that ends too soon. -/
def cutMessages : List String :=
  [ioError, "truncated pcapng block header", "truncated pcapng block", "truncated pcapng payload"]

def CutShort (message : String) : Prop := message ∈ cutMessages

theorem readExact_breaks {n : Nat} {message : String} {input taken rest : Bytes}
    (h : readExact n message input = .ok (taken, rest)) (hshort : message ∈ cutMessages) :
    Breaks CutShort (readExact n message) (fun g => (taken, g)) input rest := by
  obtain ⟨hlen, heq⟩ := readExact_eq_ok.mp h
  obtain ⟨rfl, rfl⟩ := Prod.mk.inj heq
  intro m
  rcases Nat.lt_or_ge m n with hlt | hge
  · right
    refine ⟨message, ?_, hshort⟩
    rw [readExact, if_neg]
    rw [List.length_take]
    omega
  · left
    refine ⟨m - n, readExact_eq_ok.mpr ⟨?_, ?_⟩⟩
    · rw [List.length_take]
      omega
    · rw [List.take_take, min_eq_left hge, List.drop_take]

theorem skip_breaks {n : Nat} {input rest : Bytes} (h : skip n input = .ok rest) :
    Breaks CutShort (skip n) id input rest := by
  unfold skip at h
  obtain ⟨⟨taken, left⟩, htaken, h⟩ := Result.bind_eq_ok.mp h
  cases h
  unfold skip
  refine (readExact_breaks htaken (by decide)).bind ?_
  exact .done id _

theorem footer_breaks {o : ByteOrder} {size : UInt32} {input rest : Bytes}
    (h : footer o size input = .ok rest) : Breaks CutShort (footer o size) id input rest := by
  unfold footer at h
  obtain ⟨⟨word, left⟩, hword, h⟩ := Result.bind_eq_ok.mp h
  dsimp only at h
  obtain ⟨hsize, h⟩ := ensure_bind_eq_ok.mp h
  cases h
  unfold footer
  refine (readExact_breaks hword (by decide)).bind ?_
  simp only [ensure_of _ hsize, Result.ok_bind]
  exact .done id _

/-- The rest of a block that is not looked at. -/
theorem skip_footer_honest {α : Type} {o : ByteOrder} {size : UInt32} {n : Nat} {input mid rest : Bytes}
    (out : Bytes → α) (hskip : skip n input = .ok mid) (hfooter : footer o size mid = .ok rest) :
    Honest CutShort (fun i => skip n i >>= fun g => footer o size g >>= fun g => .ok (out g)) input := by
  refine (skip_breaks hskip).honest_bind ?_
  refine (footer_breaks hfooter).honest_bind ?_
  exact .done _ _

theorem readOptions_breaks {o : ByteOrder} {fuel remaining remaining' : Nat} {i i' : Interface}
    {input rest : Bytes} (h : readOptions o fuel remaining i input = .ok (i', remaining', rest)) :
    Breaks CutShort (readOptions o fuel remaining i) (fun g => (i', remaining', g)) input rest := by
  induction fuel generalizing remaining i input with
  | zero =>
    cases h
    exact .done _ _
  | succ fuel ih =>
    rw [readOptions] at h
    by_cases hlow : remaining < 4
    · rw [if_pos hlow] at h
      cases h
      simp only [readOptions, if_pos hlow]
      exact .done _ _
    · rw [if_neg hlow] at h
      obtain ⟨⟨option, input₁⟩, hoption, h⟩ := Result.bind_eq_ok.mp h
      dsimp only at h
      rw [ensure_bind_eq_ok] at h
      obtain ⟨hfits, h⟩ := h
      obtain ⟨⟨value, input₂⟩, hvalue, h⟩ := Result.bind_eq_ok.mp h
      obtain ⟨input₃, hskip, h⟩ := Result.bind_eq_ok.mp h
      obtain ⟨⟨i₁, last⟩, happly, h⟩ := Result.bind_eq_ok.mp h
      dsimp only at h
      simp only [readOptions, if_neg hlow]
      refine (readExact_breaks hoption (by decide)).bind ?_
      simp only [ensure_of _ hfits, Result.ok_bind]
      refine (readExact_breaks hvalue (by decide)).bind ?_
      dsimp only at hskip happly ⊢
      refine (skip_breaks hskip).bind ?_
      simp only [happly, Result.ok_bind]
      cases last with
      | true =>
        cases h
        exact .done _ _
      | false => exact ih h

theorem readDescriptors_breaks {o : ByteOrder} {m : EventMeta} {known : Bool} {count : Nat}
    {input rest : Bytes} {iso : List IsoDescriptor}
    (h : readDescriptors o m known count input = .ok (iso, rest)) :
    Breaks CutShort (readDescriptors o m known count) (fun g => (iso, g)) input rest := by
  induction count generalizing input iso with
  | zero =>
    cases h
    exact .done _ _
  | succ count ih =>
    rw [readDescriptors] at h
    obtain ⟨⟨body, input₁⟩, hbody, h⟩ := Result.bind_eq_ok.mp h
    dsimp only at h
    rw [ensure_bind_eq_ok, ensure_bind_eq_ok] at h
    obtain ⟨hstop, hinside, h⟩ := h
    obtain ⟨⟨tail, input₂⟩, htail, h⟩ := Result.bind_eq_ok.mp h
    cases h
    simp only [readDescriptors]
    refine (readExact_breaks hbody (by decide)).bind ?_
    simp only [ensure_of _ hstop, ensure_of _ hinside, Result.ok_bind]
    refine (ih htail).bind ?_
    exact .done _ _

theorem readSetup_breaks {o : ByteOrder} {m m' : EventMeta} {known : Bool} {usb input rest : Bytes}
    {iso : List IsoDescriptor} (h : readSetup o m known usb input = .ok (m', iso, rest)) :
    Breaks CutShort (readSetup o m known usb) (fun g => (m', iso, g)) input rest := by
  unfold readSetup at h ⊢
  by_cases ht : m.transferType = 0
  · rw [if_pos ht] at h
    dsimp only at h
    obtain ⟨hcount, h⟩ := ensure_bind_eq_ok.mp h
    obtain ⟨⟨ds, left⟩, hds, h⟩ := Result.bind_eq_ok.mp h
    cases h
    simp only [if_pos ht, ensure_of _ hcount, Result.ok_bind]
    refine (readDescriptors_breaks hds).bind ?_
    exact .done _ _
  · rw [if_neg ht] at h
    simp only [if_neg ht]
    split at h
    · rename_i hs
      cases h
      simp only [if_pos hs]
      exact .done _ _
    · rename_i hs
      cases h
      simp only [if_neg hs]
      exact .done _ _

/-- Which bytes the packet is seen with makes no difference to what fails. -/
theorem readUsb_honest {r r' : Reader} {size captured : UInt32} {interface : Interface}
    {timestamp : UInt64} {seen : Packet} {input rest : Bytes} {b : Block}
    (h : readUsb r size captured interface timestamp seen input = .ok (b, r', rest)) (seen' : Packet) :
    Honest CutShort (readUsb r size captured interface timestamp seen') input := by
  unfold readUsb at h
  obtain ⟨⟨usb, input₁⟩, husb, h⟩ := Result.bind_eq_ok.mp h
  dsimp only at h
  obtain ⟨m, hm, h⟩ := Result.bind_eq_ok.mp h
  obtain ⟨⟨m₁, known, table⟩, hpair, h⟩ := Result.bind_eq_ok.mp h
  obtain ⟨⟨m₂, iso, input₂⟩, hsetup, h⟩ := Result.bind_eq_ok.mp h
  obtain ⟨⟨payload, input₃⟩, hpayload, h⟩ := Result.bind_eq_ok.mp h
  obtain ⟨input₄, hskip, h⟩ := Result.bind_eq_ok.mp h
  obtain ⟨input₅, hfooter, h⟩ := Result.bind_eq_ok.mp h
  dsimp only at hsetup hpayload hskip hfooter
  unfold readUsb
  refine (readExact_breaks husb (by decide)).honest_bind ?_
  simp only [hm, hpair, Result.ok_bind]
  refine (readSetup_breaks hsetup).honest_bind ?_
  dsimp +instances only
  refine (readExact_breaks hpayload (by decide)).honest_bind ?_
  dsimp +instances only
  refine (skip_breaks hskip).honest_bind ?_
  refine (footer_breaks hfooter).honest_bind ?_
  dsimp only [id]
  split
  · exact .done _ _
  · exact .done _ _

theorem readPacket_honest {r r' : Reader} {size : UInt32} {input rest : Bytes} {b : Block}
    (h : readPacket r size input = .ok (b, r', rest)) : Honest CutShort (readPacket r size) input := by
  unfold readPacket at h
  dsimp only at h
  obtain ⟨hsize, h⟩ := ensure_bind_eq_ok.mp h
  obtain ⟨⟨packet, input₁⟩, hpacket, h⟩ := Result.bind_eq_ok.mp h
  dsimp only at h
  obtain ⟨interface, hi, h⟩ := Result.bind_eq_ok.mp h
  obtain ⟨hlink, h⟩ := ensure_bind_eq_ok.mp h
  obtain ⟨timestamp, htime, h⟩ := Result.bind_eq_ok.mp h
  obtain ⟨hpadded, h⟩ := ensure_bind_eq_ok.mp h
  unfold readPacket
  simp only [ensure_of _ hsize, Result.ok_bind]
  refine (readExact_breaks hpacket (by decide)).honest_bind ?_
  simp only [hi, ensure_of _ hlink, htime, ensure_of _ hpadded, Result.ok_bind]
  by_cases hcut : (u32 r.endian 12 packet).toNat < 64 ∨ u32 r.endian 12 packet < u32 r.endian 16 packet
  · rw [if_pos hcut] at h
    obtain ⟨input₂, hskip, h⟩ := Result.bind_eq_ok.mp h
    obtain ⟨input₃, hfooter, h⟩ := Result.bind_eq_ok.mp h
    simp only [if_pos hcut]
    intro n message herror
    exact skip_footer_honest _ hskip hfooter n message herror
  · rw [if_neg hcut] at h
    obtain ⟨heq, h⟩ := ensure_bind_eq_ok.mp h
    simp only [if_neg hcut, ensure_of _ heq, Result.ok_bind]
    intro n message herror
    exact readUsb_honest h _ n message herror

theorem readInterface_honest {r r' : Reader} {size : UInt32} {input rest : Bytes} {b : Block}
    (h : readInterface r size input = .ok (b, r', rest)) :
    Honest CutShort (readInterface r size) input := by
  unfold readInterface at h
  obtain ⟨hsize, h⟩ := ensure_bind_eq_ok.mp h
  obtain ⟨⟨body, input₁⟩, hbody, h⟩ := Result.bind_eq_ok.mp h
  dsimp only at h
  obtain ⟨⟨i, remaining, input₂⟩, hoptions, h⟩ := Result.bind_eq_ok.mp h
  dsimp only at h
  obtain ⟨input₃, hskip, h⟩ := Result.bind_eq_ok.mp h
  obtain ⟨hnext, h⟩ := ensure_bind_eq_ok.mp h
  obtain ⟨input₄, hfooter, h⟩ := Result.bind_eq_ok.mp h
  unfold readInterface
  simp only [ensure_of _ hsize, Result.ok_bind]
  refine (readExact_breaks hbody (by decide)).honest_bind ?_
  dsimp only
  refine (readOptions_breaks hoptions).honest_bind ?_
  dsimp only
  refine (skip_breaks hskip).honest_bind ?_
  simp only [ensure_of _ hnext, Result.ok_bind]
  refine (footer_breaks hfooter).honest_bind ?_
  exact .done _ _

theorem readSection_honest {r r' : Reader} {header input rest : Bytes} {b : Block}
    (h : readSection r header input = .ok (b, r', rest)) :
    Honest CutShort (readSection r header) input := by
  unfold readSection at h
  obtain ⟨⟨magic, input₁⟩, hmagic, h⟩ := Result.bind_eq_ok.mp h
  dsimp only at h
  obtain ⟨endian, hendian, h⟩ := Result.bind_eq_ok.mp h
  obtain ⟨hsize, h⟩ := ensure_bind_eq_ok.mp h
  obtain ⟨⟨version, input₂⟩, hversion, h⟩ := Result.bind_eq_ok.mp h
  dsimp only at h
  obtain ⟨hone, h⟩ := ensure_bind_eq_ok.mp h
  obtain ⟨input₃, hskip, h⟩ := Result.bind_eq_ok.mp h
  obtain ⟨input₄, hfooter, h⟩ := Result.bind_eq_ok.mp h
  unfold readSection
  refine (readExact_breaks hmagic (by decide)).honest_bind ?_
  simp only [hendian, ensure_of _ hsize, Result.ok_bind]
  refine (readExact_breaks hversion (by decide)).honest_bind ?_
  simp only [ensure_of _ hone, Result.ok_bind]
  exact skip_footer_honest _ hskip hfooter

/-- A block that the reader reads is never taken for another, or for a damaged
one, where it breaks off. -/
theorem nextBlock_honest {r r' : Reader} {input rest : Bytes} {b : Block}
    (h : nextBlock r input = .ok (b, r', rest)) : Honest CutShort (nextBlock r) input := by
  unfold nextBlock at h ⊢
  obtain ⟨⟨header, input₁⟩, hheader, h⟩ := Result.bind_eq_ok.mp h
  refine (readExact_breaks hheader (by decide)).honest_bind ?_
  dsimp only at h ⊢
  by_cases hsec : header.take 4 = [10, 13, 13, 10]
  · rw [if_pos hsec] at h
    simp only [if_pos hsec]
    exact readSection_honest h
  · rw [if_neg hsec] at h
    obtain ⟨hin, h⟩ := ensure_bind_eq_ok.mp h
    rw [ensure_bind_eq_ok] at h
    obtain ⟨hsize, h⟩ := h
    simp only [if_neg hsec, ensure_of _ hin, ensure_of _ hsize, Result.ok_bind]
    by_cases hone : u32 r.endian 0 header = 1
    · rw [if_pos hone] at h
      simp only [if_pos hone]
      exact readInterface_honest h
    · rw [if_neg hone] at h
      simp only [if_neg hone]
      by_cases hsix : u32 r.endian 0 header = 6
      · rw [if_pos hsix] at h
        simp only [if_pos hsix]
        exact readPacket_honest h
      · rw [if_neg hsix] at h
        simp only [if_neg hsix]
        by_cases hlegacy : u32 r.endian 0 header = 2 ∨ u32 r.endian 0 header = 3
        · rw [if_pos hlegacy] at h
          cases h
        · rw [if_neg hlegacy] at h
          obtain ⟨input₂, hskip, h⟩ := Result.bind_eq_ok.mp h
          obtain ⟨input₃, hfooter, h⟩ := Result.bind_eq_ok.mp h
          simp only [if_neg hlegacy]
          exact skip_footer_honest _ hskip hfooter

end UsbScope.Pcapng
