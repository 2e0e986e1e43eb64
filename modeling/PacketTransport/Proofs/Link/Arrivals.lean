import PacketTransport.Link.Connection
import PacketTransport.Proofs.Wire.Feeding

/-!
# What arrives with each read

Of the packets before a bad frame, each is completed by some page.  Handing out what is complete
after each page comes to the same packets, and to the same end, as handing everything out when all
pages have arrived.

* `Receiver.switchAll` — the switches of a hook, in the receiving direction;
* `Receiver.HandsOut` — the packets that a receiver gives, and the answer behind them;
* `Receiver.HandsOut.split` — those that are complete before some pages arrive, and the others;
* `Receiver.Arrives` — the packets that each page completes, up to the one that brings a bad frame;
* `Receiver.HandsOut.arrives` — they are the packets of the whole.
-/

namespace PacketTransport

/-- The next frame cannot be cut off, or gives no packet. -/
def PacketOutcome.Bad : PacketOutcome → Prop
  | .undecodable _ | .failed _ => True
  | _ => False

/-- An answer gives a packet, waits, or says that the next frame is bad. -/
theorem PacketOutcome.ready_or_waits_or_bad (o : PacketOutcome) :
    (∃ p, o = .ready p) ∨ o.Waits ∨ o.Bad := by
  cases o with
  | ready p => exact .inl ⟨p, rfl⟩
  | waitingForHeader => exact .inr (.inl trivial)
  | waitingForData missing => exact .inr (.inl trivial)
  | undecodable found => exact .inr (.inr trivial)
  | failed e => exact .inr (.inr trivial)

theorem PacketOutcome.Waits.not_bad {o : PacketOutcome} (h : o.Waits) : ¬ o.Bad := by
  cases o with
  | waitingForHeader => exact id
  | waitingForData missing => exact id
  | ready p => cases h
  | undecodable found => cases h
  | failed e => cases h

namespace Receiver

variable {r : Receiver} {a : Allocator} {hook : Hook} {ps qs : List Page}
  {packets late : List Packet} {last : Result}

/-! ### Switches -/

/-- Makes a switch in the receiving direction. -/
def switch (r : Receiver) : Switch → Except AlreadyStarted Receiver
  | .compression threshold _ => .ok (r.startCompression threshold)
  | .encryption key => r.startEncryption key

/-- Makes switches in order, unless one fails. -/
def switchAll (r : Receiver) : List Switch → Except AlreadyStarted Receiver
  | [] => .ok r
  | s :: ss => r.switch s >>= fun t => t.switchAll ss

/-- It makes no difference whether a page arrives before a switch or behind it. -/
theorem switch_feed (r : Receiver) (s : Switch) (p : Page) :
    (r.feed p).switch s = (r.switch s).map (·.feed p) := by
  cases s with
  | compression threshold level => rfl
  | encryption key => exact startEncryption_feed r key p

theorem switchAll_feed (r : Receiver) (ss : List Switch) (p : Page) :
    (r.feed p).switchAll ss = (r.switchAll ss).map (·.feed p) := by
  induction ss generalizing r with
  | nil => rfl
  | cons s ss ih =>
    rw [switchAll, switchAll, switch_feed]
    cases r.switch s with
    | error e => rfl
    | ok t => exact ih t

theorem switchAll_feedAll (r : Receiver) (ss : List Switch) (ps : List Page) :
    (r.feedAll ps).switchAll ss = (r.switchAll ss).map (·.feedAll ps) := by
  induction ps generalizing r with
  | nil =>
    cases h : r.switchAll ss with
    | error e => exact h
    | ok t => exact h
  | cons p ps ih =>
    show ((r.feed p).feedAll ps).switchAll ss = _
    rw [ih, switchAll_feed]
    cases r.switchAll ss with
    | error e => rfl
    | ok t => rfl

/-- A receiver behind a packet: nothing is remembered of the next frame. -/
structure Between (r : Receiver) : Prop where
  header : r.splitter.state = .header
  fits : r.splitter.buffer.FitsBlocks

theorem Between.sound (h : r.Between) : r.splitter.Sound :=
  ⟨h.fits, by rw [FrameSplitter.Tracks, h.header]; trivial, by simp [h.header]⟩

/-- A switch behind a packet leaves a receiver behind a packet, with as many bytes. -/
theorem Between.switch {t : Receiver} {s : Switch} (h : r.Between) (hs : r.switch s = .ok t) :
    t.Between ∧ t.buffered = r.buffered := by
  cases s with
  | compression threshold level =>
    cases hs
    exact ⟨⟨h.header, h.fits⟩, rfl⟩
  | encryption key =>
    cases hactive : r.decrypt.active with
    | true =>
      rw [Receiver.switch, startEncryption_of_active hactive] at hs
      cases hs
    | false =>
      rw [Receiver.switch, startEncryption_of_idle hactive] at hs
      cases hs
      obtain ⟨-, -, hsizes⟩ := StreamCipher.processPages_eq (r.started key) r.splitter.buffer
      exact ⟨⟨h.header, h.fits.congr hsizes⟩, congrArg total hsizes⟩

theorem Between.switchAll {t : Receiver} {ss : List Switch} (h : r.Between)
    (hss : r.switchAll ss = .ok t) : t.Between ∧ t.buffered = r.buffered := by
  induction ss generalizing r with
  | nil =>
    cases hss
    exact ⟨h, rfl⟩
  | cons s ss ih =>
    rw [Receiver.switchAll] at hss
    cases hs : r.switch s with
    | error e =>
      rw [hs] at hss
      cases hss
    | ok u =>
      rw [hs] at hss
      obtain ⟨hu, hbuffered⟩ := h.switch hs
      obtain ⟨ht, hbuffered'⟩ := ih hu hss
      exact ⟨ht, hbuffered'.trans hbuffered⟩

/-- A packet takes bytes out of the buffer. -/
theorem between_of_ready {p : Packet} (h : r.splitter.Sound) (hp : (r.next a).outcome = .ready p) :
    (r.next a).next.Between ∧ (r.next a).next.buffered < r.buffered :=
  ⟨⟨state_of_ready hp, (sound_next h a).fits⟩, buffered_lt_of_ready h hp⟩

/-! ### Handing out -/

/-- Asked again and again, and with the switches of the hook made behind each packet, a receiver
hands out some packets, and then comes to an answer without one. -/
inductive HandsOut (a : Allocator) (hook : Hook) : Receiver → List Packet → Result → Prop
  | stop {r : Receiver} : (r.next a).outcome.Waits ∨ (r.next a).outcome.Bad →
      HandsOut a hook r [] (r.next a)
  | packet {r s : Receiver} {p : Packet} {packets : List Packet} {last : Result} :
      (r.next a).outcome = .ready p → (r.next a).next.switchAll (hook p) = .ok s →
      HandsOut a hook s packets last → HandsOut a hook r (p :: packets) last

theorem HandsOut.sound (h : HandsOut a hook r packets last) (hr : r.splitter.Sound) :
    last.next.splitter.Sound := by
  induction h with
  | stop hends => exact sound_next hr a
  | packet hp hswitch _ ih =>
    exact ih ((between_of_ready hr hp).1.switchAll hswitch).1.sound

/-- A receiver that waits, and is asked again, waits for the same. -/
theorem HandsOut.again (h : HandsOut a hook r packets last) (hr : r.splitter.Sound)
    (hwaits : last.outcome.Waits) : HandsOut a hook last.next [] last := by
  induction h with
  | @stop r _ =>
    have hnext : (r.next a).next.next a = r.next a :=
      next_feedAll_of_waits hr (List.forall_mem_nil _) hwaits a
    have hstop : HandsOut a hook (r.next a).next [] ((r.next a).next.next a) :=
      .stop (by rw [hnext]; exact .inl hwaits)
    rw [hnext] at hstop
    exact hstop
  | packet hp hswitch _ ih => exact ih ((between_of_ready hr hp).1.switchAll hswitch).1.sound hwaits

/-- What is handed out is determined by the receiver. -/
theorem HandsOut.unique {packets' : List Packet} {last' : Result}
    (h : HandsOut a hook r packets last) (h' : HandsOut a hook r packets' last') :
    packets = packets' ∧ last = last' := by
  induction h generalizing packets' last' with
  | stop hends =>
    cases h' with
    | stop _ => exact ⟨rfl, rfl⟩
    | packet hp _ _ =>
      rw [hp] at hends
      exact absurd hends (by rintro (h | h) <;> exact h)
  | packet hp hswitch _ ih =>
    cases h' with
    | stop hends =>
      rw [hp] at hends
      exact absurd hends (by rintro (h | h) <;> exact h)
    | packet hp' hswitch' hrest =>
      cases hp.symm.trans hp'
      cases hswitch.symm.trans hswitch'
      obtain ⟨rfl, rfl⟩ := ih hrest
      exact ⟨rfl, rfl⟩

/-- What is handed out depends on the next answer only. -/
theorem HandsOut.congr {s : Receiver} (h : HandsOut a hook r packets last)
    (hnext : s.next a = r.next a) : HandsOut a hook s packets last := by
  cases h with
  | stop hends =>
    rw [← hnext] at hends ⊢
    exact .stop hends
  | packet hp hswitch hrest =>
    rw [← hnext] at hp hswitch
    exact .packet hp hswitch hrest

/-- **Some packets are complete before the last pages arrive.**  A receiver that is asked before
these pages arrive hands out a part of the packets, and waits for the others or comes to the same
bad frame. -/
theorem HandsOut.split (h : HandsOut a hook (r.feedAll qs) packets last) (hr : r.splitter.Sound)
    (hqs : ∀ q ∈ qs, q.Arrived) :
    ∃ early mid, HandsOut a hook r early mid ∧
      ((mid.outcome.Waits ∧ ∃ late, packets = early ++ late ∧
          HandsOut a hook (mid.next.feedAll qs) late last) ∨
        (packets = early ∧ last.outcome = mid.outcome)) := by
  generalize hx : r.feedAll qs = x at h
  induction h generalizing r with
  | @stop x hends =>
    subst hx
    rcases (r.next a).outcome.ready_or_waits_or_bad with ⟨p, hp⟩ | hwaits | hbad
    · -- the packet would be handed out when the pages have arrived, too
      rw [next_feedAll hr hqs (by rw [hp]; exact id)] at hends
      simp only [hp] at hends
      exact absurd hends (by rintro (h | h) <;> exact h)
    · refine ⟨[], r.next a, .stop (.inl hwaits), .inl ⟨hwaits, [], rfl, ?_⟩⟩
      exact (HandsOut.stop hends).congr (next_feedAll_of_waits hr hqs hwaits a)
    · refine ⟨[], r.next a, .stop (.inr hbad), .inr ⟨rfl, ?_⟩⟩
      rw [next_feedAll hr hqs fun hwaits => hwaits.not_bad hbad]
  | @packet x s p packets last hp hswitch hrest ih =>
    subst hx
    rcases (r.next a).outcome.ready_or_waits_or_bad with ⟨p', hp'⟩ | hwaits | hbad
    · rw [next_feedAll hr hqs (by rw [hp']; exact id)] at hp hswitch
      obtain rfl : p' = p := PacketOutcome.ready.inj (hp'.symm.trans hp)
      rw [switchAll_feedAll] at hswitch
      cases hs : (r.next a).next.switchAll (hook p') with
      | error e =>
        rw [hs] at hswitch
        cases hswitch
      | ok t =>
        rw [hs] at hswitch
        have ht := ((between_of_ready hr hp').1.switchAll hs).1.sound
        obtain ⟨early, mid, hearly, hmid⟩ := ih ht (Except.ok.inj hswitch)
        refine ⟨p' :: early, mid, .packet hp' hs hearly, ?_⟩
        rcases hmid with ⟨hwaits, late, hlate, hrest⟩ | ⟨hall, hlast⟩
        · exact .inl ⟨hwaits, late, by rw [hlate, List.cons_append], hrest⟩
        · exact .inr ⟨by rw [hall], hlast⟩
    · refine ⟨[], r.next a, .stop (.inl hwaits), .inl ⟨hwaits, p :: packets, rfl, ?_⟩⟩
      exact (HandsOut.packet hp hswitch hrest).congr (next_feedAll_of_waits hr hqs hwaits a)
    · rw [next_feedAll hr hqs fun hwaits => hwaits.not_bad hbad] at hp
      simp only at hp
      rw [hp] at hbad
      cases hbad

/-! ### Page after page -/

/-- Pages arrive one after the other, and a receiver is asked before the first one, and again behind
each of them, until it comes to a bad frame.  `groups` are the packets that it hands out each time
before it waits, and `late` are those that it hands out in front of the bad frame, of which it says
`o`. -/
inductive Arrives (a : Allocator) (hook : Hook) :
    Receiver → List Page → List (List Packet) → List Packet → PacketOutcome → Prop
  | bad {r : Receiver} {qs : List Page} {late : List Packet} {last : Result} :
      HandsOut a hook r late last → last.outcome.Bad → Arrives a hook r qs [] late last.outcome
  | wait {r : Receiver} {q : Page} {qs : List Page} {group : List Packet} {mid : Result}
      {groups : List (List Packet)} {late : List Packet} {o : PacketOutcome} :
      HandsOut a hook r group mid → mid.outcome.Waits →
      Arrives a hook (mid.next.feed q) qs groups late o →
      Arrives a hook r (q :: qs) (group :: groups) late o

/-- **Each packet arrives with some page.**  What is handed out when all pages have arrived, up to a
bad frame, is handed out page after page. -/
theorem HandsOut.arrives (h : HandsOut a hook (r.feedAll qs) packets last) (hbad : last.outcome.Bad)
    (hr : r.splitter.Sound) (hqs : ∀ q ∈ qs, q.Arrived) :
    ∃ groups late, Arrives a hook r qs groups late last.outcome ∧
      packets = groups.flatten ++ late := by
  induction qs generalizing r packets with
  | nil => exact ⟨[], packets, .bad h hbad, rfl⟩
  | cons q qs ih =>
    obtain ⟨early, mid, hearly, hmid⟩ := h.split hr hqs
    rcases hmid with ⟨hwaits, late, hlate, hrest⟩ | ⟨hall, hlast⟩
    · have hfed := sound_feed (hearly.sound hr) (hqs q List.mem_cons_self)
      obtain ⟨groups, late', harrives, hflatten⟩ :=
        ih hrest hfed fun p hp => hqs p (List.mem_cons_of_mem q hp)
      refine ⟨early :: groups, late', .wait hearly hwaits harrives, ?_⟩
      rw [hlate, hflatten, List.flatten_cons, List.append_assoc]
    · rw [hlast] at hbad ⊢
      exact ⟨[], early, .bad hearly hbad, hall⟩

/-- What arrives is determined by the receiver and the pages. -/
theorem Arrives.unique {groups groups' : List (List Packet)} {late' : List Packet}
    {o o' : PacketOutcome} (h : Arrives a hook r qs groups late o)
    (h' : Arrives a hook r qs groups' late' o') : groups = groups' ∧ late = late' ∧ o = o' := by
  induction h generalizing groups' late' o' with
  | bad hgiven hbad =>
    cases h' with
    | bad hgiven' _ =>
      obtain ⟨rfl, rfl⟩ := hgiven.unique hgiven'
      exact ⟨rfl, rfl, rfl⟩
    | wait hgiven' hwaits _ =>
      obtain ⟨-, rfl⟩ := hgiven.unique hgiven'
      exact absurd hbad hwaits.not_bad
  | wait hgiven hwaits _ ih =>
    cases h' with
    | bad hgiven' hbad =>
      obtain ⟨-, rfl⟩ := hgiven.unique hgiven'
      exact absurd hbad hwaits.not_bad
    | wait hgiven' _ hrest =>
      obtain ⟨rfl, rfl⟩ := hgiven.unique hgiven'
      obtain ⟨rfl, rfl, rfl⟩ := ih hrest
      exact ⟨rfl, rfl, rfl⟩

/-- Each page but the last one has a group. -/
theorem Arrives.length_le {groups : List (List Packet)} {o : PacketOutcome}
    (h : Arrives a hook r qs groups late o) : groups.length ≤ qs.length := by
  induction h with
  | bad _ _ => exact Nat.zero_le _
  | wait _ _ _ ih => exact Nat.succ_le_succ ih

end Receiver

end PacketTransport
