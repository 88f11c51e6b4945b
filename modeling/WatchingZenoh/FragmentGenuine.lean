import WatchingZenoh.FragmentRefusals

/-! Runs in which a datagram's own pieces arrive, with refused ones among them. Its pieces are all
accepted, it is answered once they make it whole, and the answer is its payload. -/

namespace WatchingZenoh.Fragments.FragmentTable

open MergedRuns

variable {payload : List UInt8} {key : FragmentKey} {calls : List Call} {call : Call}

/-- Each piece of the key is true to the payload, or is refused and harmless. -/
def Clean (payload : List UInt8) (key : FragmentKey) (calls : List Call) : Prop :=
  ∀ before call after, calls = before ++ call :: after → call.1.key = key →
    TrueTo payload call.1 ∨
      ((new.pushes before).refuses call.1 call.2 ∧ (new.pushes before).Harmless call.1 call.2)

theorem Clean.prefix (h : Clean payload key (calls ++ [call])) : Clean payload key calls := by
  rintro before c after rfl hkey
  exact h before c (after ++ [call]) (by simp) hkey

theorem clean_of_true (h : ∀ c ∈ calls, c.1.key = key → TrueTo payload c.1) :
    Clean payload key calls := by
  rintro before c after rfl hkey
  exact .inl (h c (by simp) hkey)

/-- What is pending of a key is of pieces true to the payload. -/
structure Genuine (payload : List UInt8) (key : FragmentKey) (calls : List Call) : Prop where
  pieces : ∀ piece ∈ accepted key calls, TrueTo payload piece
  unforged : ∀ p, (new.pushes calls).pending[key]? = some p → Unforged payload p

theorem Genuine.entryFor (h : Genuine payload call.1.key calls) :
    Unforged payload ((new.pushes calls).entryFor call) := by
  rw [FragmentTable.entryFor]
  rcases hentry : (new.pushes calls).pending[call.1.key]? with _ | p
  · intro t ht
    simp [fresh] at ht
  · exact h.unforged p hentry

theorem Genuine.accepts (h : Genuine payload call.1.key calls)
    (hlen : payload.length ≤ maxDatagram) (htrue : TrueTo payload call.1) :
    (new.pushes calls).accepts call = true ∧
      Unforged payload (offered call.1 ((new.pushes calls).entryFor call)).1 := by
  have hpushed := (unbounded_pushes unbounded_new calls).pushed call
  have hfollows := follows_pushes call.1.key calls
  rw [hpushed.accepts_eq]
  exact htrue.offered hlen hfollows.entryFor h.pieces h.entryFor

theorem offered_of_harmless (hrefuse : (new.pushes calls).refuses call.1 call.2)
    (hharmless : (new.pushes calls).Harmless call.1 call.2) :
    (offered call.1 ((new.pushes calls).entryFor call)).2 = false ∧
      (offered call.1 ((new.pushes calls).entryFor call)).1.total =
        ((new.pushes calls).entryFor call).total := by
  have hunbounded := unbounded_pushes unbounded_new calls
  have hpushed := hunbounded.pushed call
  have htracks := (follows_pushes call.1.key calls).entryFor
  have hrefused : (offered call.1 ((new.pushes calls).entryFor call)).2 = false := by
    rw [refuses, hpushed.malformed] at hrefuse
    by_contra hplaced
    simp [hplaced] at hrefuse
  obtain ⟨p, hp, hcond⟩ := hharmless
  rw [hunbounded.expire] at hp
  have hentry : (new.pushes calls).entryFor call = p := by
    rw [FragmentTable.entryFor, hp, Option.getD_some]
  rw [hentry] at htracks hrefused ⊢
  have hcontent := (htracks.content_refused_iff ((offered_snd_eq_false_iff htracks).mp hrefused)).mpr
    hcond
  exact ⟨hrefused, (Prod.mk.inj (Prod.mk.inj hcontent).2).2⟩

theorem noted_of_refused {t : FragmentTable} {pieces : List IpFragment}
    (hpushed : Pushed t call (t.push call.1 call.2))
    (hrefused : (offered call.1 (t.entryFor call)).2 = false) :
    noted call.1.key t pieces call = pieces := by
  have hanswer : (t.push call.1 call.2).2 = none := by
    rw [hpushed.answer, if_neg]
    simp [completes, hrefused]
  rw [noted, if_pos rfl, hanswer, hpushed.accepts_eq, hrefused]
  simp

theorem Genuine.step (h : Genuine payload key calls) (hlen : payload.length ≤ maxDatagram)
    (hcall : call.1.key = key → TrueTo payload call.1 ∨
      ((new.pushes calls).refuses call.1 call.2 ∧ (new.pushes calls).Harmless call.1 call.2)) :
    Genuine payload key (calls ++ [call]) := by
  have hpushed := (unbounded_pushes unbounded_new calls).pushed call
  by_cases hkey : call.1.key = key
  · subst hkey
    rcases hcall rfl with htrue | ⟨hrefuse, hharmless⟩
    · obtain ⟨haccepts, hunforged⟩ := h.accepts hlen htrue
      refine ⟨fun piece hmem => ?_, fun p hp => ?_⟩
      · rw [accepted_concat, noted, if_pos rfl, if_pos haccepts] at hmem
        split_ifs at hmem
        · simp at hmem
        · rcases List.mem_append.mp hmem with hmem | hmem
          · exact h.pieces piece hmem
          · cases List.mem_singleton.mp hmem
            exact htrue
      · rw [pushes_concat, hpushed.own] at hp
        split_ifs at hp
        cases hp
        exact hunforged
    · obtain ⟨hrefused, htotal⟩ := offered_of_harmless hrefuse hharmless
      refine ⟨?_, fun p hp => ?_⟩
      · rw [accepted_concat, noted_of_refused hpushed hrefused]
        exact h.pieces
      · rw [pushes_concat, hpushed.own] at hp
        split_ifs at hp
        cases hp
        intro t ht
        exact h.entryFor t (htotal ▸ ht)
  · refine ⟨?_, fun p hp => ?_⟩
    · rw [accepted_concat, noted, if_neg hkey]
      exact h.pieces
    · rw [pushes_concat, hpushed.others key hkey] at hp
      exact h.unforged p hp

theorem genuine_of_clean (hlen : payload.length ≤ maxDatagram) (h : Clean payload key calls) :
    Genuine payload key calls := by
  induction calls using List.reverseRecOn with
  | nil => exact ⟨by simp [accepted], by simp [pushes, new, bounded]⟩
  | append_singleton calls call ih =>
    exact (ih h.prefix).step hlen (h calls call [] (by simp))

theorem Genuine.answer (h : Genuine payload call.1.key calls)
    (hlen : payload.length ≤ maxDatagram) (htrue : TrueTo payload call.1) {d : Reassembled}
    (hd : ((new.pushes calls).push call.1 call.2).2 = some d) :
    d.payload = payload ∧ d.overlapped = false := by
  have hpushed := (unbounded_pushes unbounded_new calls).pushed call
  have hfollows := follows_pushes call.1.key calls
  have hpieces : ∀ piece ∈ accepted call.1.key calls ++ [call.1], TrueTo payload piece := by
    simpa [or_imp, forall_and, htrue] using h.pieces
  obtain ⟨total, hwhole⟩ := (hpushed.answers_iff hfollows).mp (by simp [hd])
  obtain ⟨-, hlength, hbytes, hover⟩ := hpushed.answer_of_whole hfollows hd hwhole
  rw [if_pos (h.accepts hlen htrue).1] at hwhole hbytes hover
  have htotal : total = payload.length := by
    obtain ⟨last, hmem, hlast, hstop⟩ := hwhole.last
    rw [← hstop, (hpieces last hmem).last hlast]
  refine ⟨List.ext_getElem? fun x => ?_, Bool.eq_false_iff.mpr fun hoverlap => ?_⟩
  · rcases Nat.lt_or_ge x total with hx | hx
    · obtain ⟨byte, hbyte⟩ := Option.isSome_iff_exists.mp (hwhole.full x hx)
      rw [hbytes x hx, hbyte, firstByte_of_true hpieces hbyte]
    · rw [List.getElem?_eq_none (by omega), List.getElem?_eq_none (by omega)]
  · exact not_disagree_of_true hpieces (hover.mp hoverlap)

/-- A push of the run answered the datagram with this payload. -/
def Answered (payload : List UInt8) (key : FragmentKey) (calls : List Call) : Prop :=
  ∃ before call after d, calls = before ++ call :: after ∧ call.1.key = key ∧
    ((new.pushes before).push call.1 call.2).2 = some d ∧ d.payload = payload ∧
    d.overlapped = false

theorem answered_or_accepted (hlen : payload.length ≤ maxDatagram) (h : Clean payload key calls) :
    Answered payload key calls ∨
      ∀ call ∈ calls, call.1.key = key → TrueTo payload call.1 → call.1 ∈ accepted key calls := by
  induction calls using List.reverseRecOn with
  | nil => exact .inr (by simp)
  | append_singleton calls call ih =>
    have hgenuine := genuine_of_clean hlen h.prefix
    have hpushed := (unbounded_pushes unbounded_new calls).pushed call
    rcases ih h.prefix with ⟨before, c, after, d, rfl, hrest⟩ | hall
    · exact .inl ⟨before, c, after ++ [call], d, by simp, hrest⟩
    by_cases hkey : call.1.key = key
    · subst hkey
      by_cases htrue : TrueTo payload call.1
      · have haccepts := (hgenuine.accepts hlen htrue).1
        rcases hd : ((new.pushes calls).push call.1 call.2).2 with _ | d
        · refine .inr fun c hc hkey' htrue' => ?_
          rw [accepted_concat, noted, if_pos rfl, hd, if_neg (by simp), if_pos haccepts]
          rcases List.mem_append.mp hc with hc | hc
          · exact List.mem_append_left _ (hall c hc hkey' htrue')
          · cases List.mem_singleton.mp hc
            simp
        · exact .inl ⟨calls, call, [], d, by simp, rfl, hd, hgenuine.answer hlen htrue hd⟩
      · obtain ⟨hrefuse, hharmless⟩ := (h calls call [] (by simp) rfl).resolve_left htrue
        refine .inr fun c hc hkey' htrue' => ?_
        rw [accepted_concat, noted_of_refused hpushed (offered_of_harmless hrefuse hharmless).1]
        rcases List.mem_append.mp hc with hc | hc
        · exact hall c hc hkey' htrue'
        · cases List.mem_singleton.mp hc
          exact absurd htrue' htrue
    · refine .inr fun c hc hkey' htrue' => ?_
      rw [accepted_concat, noted, if_neg hkey]
      rcases List.mem_append.mp hc with hc | hc
      · exact hall c hc hkey' htrue'
      · cases List.mem_singleton.mp hc
        exact absurd hkey' hkey

/-- The true pieces of the datagram that arrived have a last one among them and every byte. -/
structure Arrived (payload : List UInt8) (key : FragmentKey) (calls : List Call) : Prop where
  last : ∃ call ∈ calls, call.1.key = key ∧ TrueTo payload call.1 ∧ call.1.info.more = false
  full : ∀ x < payload.length, ∃ call ∈ calls, call.1.key = key ∧ TrueTo payload call.1 ∧
    (call.1.byteAt x).isSome

theorem answered_of_arrived (hlen : payload.length ≤ maxDatagram) (h : Clean payload key calls)
    (harrived : Arrived payload key calls) : Answered payload key calls := by
  rcases answered_or_accepted hlen h with hanswered | hall
  · exact hanswered
  · refine absurd ⟨payload.length, ?_, fun x hx => ?_⟩ (follows_pushes key calls).not_whole
    · obtain ⟨call, hmem, hkey, htrue, hlast⟩ := harrived.last
      exact ⟨call.1, hall call hmem hkey htrue, hlast, htrue.last hlast⟩
    · obtain ⟨call, hmem, hkey, htrue, hbyte⟩ := harrived.full x hx
      rw [firstByte, List.findSome?_isSome_iff]
      exact ⟨call.1, hall call hmem hkey htrue, hbyte⟩

/-- Reassembly is first-writer-wins and exact in any order. -/
theorem push_reassembles (calls : List Call) (call : Call) :
    (((new.pushes calls).push call.1 call.2).2.isSome ↔
      ∃ total, Whole (acceptedWith calls call) total) ∧
    (∀ d total, ((new.pushes calls).push call.1 call.2).2 = some d →
      Whole (acceptedWith calls call) total →
      d.key = call.1.key ∧ d.payload.length = total ∧
        (∀ x < total, d.payload[x]? = firstByte (acceptedWith calls call) x) ∧
        (d.overlapped = true ↔ Disagree (acceptedWith calls call))) ∧
    ((new.pushes calls).push call.1 call.2).2 =
      ((new.pushes (calls.filter fun c => c.1.key = call.1.key)).push call.1 call.2).2 ∧
    ∀ payload : List UInt8, payload.length ≤ maxDatagram →
      (∀ c ∈ calls ++ [call], c.1.key = call.1.key → TrueTo payload c.1) →
      (new.pushes calls).accepts call = true ∧
        (∀ d, ((new.pushes calls).push call.1 call.2).2 = some d →
          d.payload = payload ∧ d.overlapped = false) ∧
        (Arrived payload call.1.key (calls ++ [call]) →
          Answered payload call.1.key (calls ++ [call])) := by
  have hpushed := (unbounded_pushes unbounded_new calls).pushed call
  have hfollows := follows_pushes call.1.key calls
  refine ⟨hpushed.answers_iff hfollows, fun d total hd hwhole =>
    hpushed.answer_of_whole hfollows hd hwhole, ?_, fun payload hlen htrue => ?_⟩
  · exact (hpushed.congr ((unbounded_pushes unbounded_new _).pushed call)
      (pending_filter call.1.key calls)).1
  · have hgenuine : Genuine payload call.1.key calls :=
      genuine_of_clean hlen (clean_of_true fun c hc => htrue c (by simp [hc]))
    have hcall := htrue call (by simp) rfl
    exact ⟨(hgenuine.accepts hlen hcall).1, fun d hd => hgenuine.answer hlen hcall hd,
      answered_of_arrived hlen (clean_of_true htrue)⟩

/-- A refused piece leaves what is pending exactly where it is harmless; and a datagram whose pieces
all arrive is answered whatever harmless pieces are refused among them. -/
theorem refused_unchanged_iff_harmless (cap window : Option ℕ) (ops : List Op) (piece : IpFragment)
    (now : Option ℕ) (payload : List UInt8) (key : FragmentKey) (calls : List Call) :
    (((bounded cap window).perform ops).refuses piece now →
      (Unchanged (((bounded cap window).perform ops).expire now)
          (((bounded cap window).perform ops).push piece now).1 ↔
        ((bounded cap window).perform ops).Harmless piece now)) ∧
    (payload.length ≤ maxDatagram → Clean payload key calls → Arrived payload key calls →
      Answered payload key calls) := by
  constructor
  · intro hrefuse
    exact (sound_perform (sound_bounded cap window) ops).unchanged_iff hrefuse
  · intro hlen hclean harrived
    exact answered_of_arrived hlen hclean harrived

/-- A piece of datagram 7 between two fixed hosts. -/
def pieceOf7 (offset : ℕ) (more : Bool) (payload : List UInt8) : IpFragment where
  src := ⟨⟨#[10, 0, 0, 3, 0, 0, 0, 0, 0, 0, 0, 0, 0, 0, 0, 0], rfl⟩, 4, 0⟩
  dst := ⟨⟨#[10, 0, 0, 4, 0, 0, 0, 0, 0, 0, 0, 0, 0, 0, 0, 0], rfl⟩, 4, 0⟩
  proto := 17
  info := ⟨7, offset, more⟩
  payload := payload
  packetIndex := 0
  tunnel := ⟨[]⟩

/-- A piece cut out of a payload is true to it. -/
theorem trueTo_of_cut {payload : List UInt8} {piece : IpFragment}
    (hcut : piece.payload = (payload.drop piece.info.offset).take piece.payload.length)
    (hwithin : piece.stop ≤ payload.length)
    (hlast : piece.info.more = false → piece.stop = payload.length) : TrueTo payload piece where
  within := hwithin
  bytes x byte h := by
    rw [IpFragment.byteAt] at h
    split_ifs at h with hle
    have hlt := (List.getElem?_eq_some_iff.mp h).1
    rw [hcut, List.getElem?_take_of_lt hlt, List.getElem?_drop, Nat.add_sub_cancel' hle] at h
    exact h
  last := hlast

def tenBytes : List UInt8 := [1, 2, 3, 4, 5, 6, 7, 8, 9, 10]

def firstOfTen : IpFragment := pieceOf7 0 true [1, 2, 3, 4, 5, 6, 7, 8]

def lastOfTen : IpFragment := pieceOf7 8 false [9, 10]

theorem trueTo_firstOfTen : TrueTo tenBytes firstOfTen :=
  trueTo_of_cut (by decide) (by decide) (by decide)

theorem trueTo_lastOfTen : TrueTo tenBytes lastOfTen :=
  trueTo_of_cut (by decide) (by decide) (by decide)

theorem arrived_ofTen {calls : List Call} (hfirst : (firstOfTen, none) ∈ calls)
    (hlast : (lastOfTen, none) ∈ calls) : Arrived tenBytes firstOfTen.key calls := by
  refine ⟨⟨(lastOfTen, none), hlast, by decide, trueTo_lastOfTen, rfl⟩, fun x hx => ?_⟩
  by_cases hx8 : x < 8
  · exact ⟨(firstOfTen, none), hfirst, rfl, trueTo_firstOfTen,
      IpFragment.isSome_byteAt.mpr ⟨Nat.zero_le _, hx8⟩⟩
  · exact ⟨(lastOfTen, none), hlast, by decide, trueTo_lastOfTen,
      IpFragment.isSome_byteAt.mpr ⟨Nat.le_of_not_lt hx8, hx⟩⟩

/-- The last piece comes first. -/
theorem push_reassembles_swapped :
    (new.pushes [(lastOfTen, none)]).accepts (firstOfTen, none) = true ∧
      Answered tenBytes firstOfTen.key [(lastOfTen, none), (firstOfTen, none)] := by
  have htrue : ∀ c ∈ [(lastOfTen, none)] ++ [((firstOfTen, none) : Call)], c.1.key = firstOfTen.key →
      TrueTo tenBytes c.1 := by
    rintro c hc -
    simp only [List.singleton_append, List.mem_cons, List.not_mem_nil, or_false] at hc
    rcases hc with rfl | rfl
    · exact trueTo_lastOfTen
    · exact trueTo_firstOfTen
  obtain ⟨haccepts, -, hanswered⟩ :=
    (push_reassembles [(lastOfTen, none)] (firstOfTen, none)).2.2.2 tenBytes (by decide) htrue
  exact ⟨haccepts, hanswered (arrived_ofTen (by simp) (by simp))⟩

/-- A piece past the ceiling, of the same datagram. -/
def pastCeiling : IpFragment := pieceOf7 65528 true [1, 2, 3, 4, 5, 6, 7, 8]

/-- It is refused between the two, which are answered all the same. -/
theorem refused_unchanged_iff_harmless_between :
    Unchanged (((bounded none none).perform [.push firstOfTen none]).expire none)
        (((bounded none none).perform [.push firstOfTen none]).push pastCeiling none).1 ∧
      Answered tenBytes firstOfTen.key [(firstOfTen, none), (pastCeiling, none), (lastOfTen, none)] := by
  have hpending : ((((bounded none none).perform [.push firstOfTen none]).expire none).pending[
      pastCeiling.key]?).isSome := by decide +kernel
  obtain ⟨p, hp⟩ := Option.isSome_iff_exists.mp hpending
  have hpending' : (((new.pushes [(firstOfTen, none)]).expire none).pending[pastCeiling.key]?).isSome := by
    decide +kernel
  obtain ⟨p', hp'⟩ := Option.isSome_iff_exists.mp hpending'
  have hclean : Clean tenBytes firstOfTen.key
      [(firstOfTen, none), (pastCeiling, none), (lastOfTen, none)] := by
    intro before call after heq _
    rcases before with _ | ⟨c₁, _ | ⟨c₂, _ | ⟨c₃, before⟩⟩⟩
    · cases heq
      exact .inl trueTo_firstOfTen
    · cases heq
      exact .inr ⟨by decide +kernel, p', hp', .inl rfl⟩
    · cases heq
      exact .inl trueTo_lastOfTen
    · simp at heq
  obtain ⟨hunchanged, hanswered⟩ := refused_unchanged_iff_harmless none none
    [.push firstOfTen none] pastCeiling none tenBytes firstOfTen.key
    [(firstOfTen, none), (pastCeiling, none), (lastOfTen, none)]
  exact ⟨(hunchanged (by decide +kernel)).mpr ⟨p, hp, .inl rfl⟩,
    hanswered (by decide) hclean (arrived_ofTen (by simp) (by simp))⟩

/-- A last piece past the ceiling is refused, and its total stays. -/
theorem total_of_refused_stays :
    ¬ ∀ (cap window : Option ℕ) (ops : List Op) (piece : IpFragment) (now : Option ℕ),
      ((bounded cap window).perform ops).refuses piece now →
      Unchanged (((bounded cap window).perform ops).expire now)
        (((bounded cap window).perform ops).push piece now).1 := by
  intro hclaim
  have hsame := hclaim none none [.push (pieceOf7 0 true [1, 2, 3, 4, 5, 6, 7, 8]) none]
    (pieceOf7 65528 false [1, 2, 3, 4, 5, 6, 7, 8]) none (by decide +kernel)
    (pieceOf7 0 true []).key
  revert hsame
  decide +kernel

end WatchingZenoh.Fragments.FragmentTable
