import Mathlib.Data.List.Basic
import Mathlib.Data.Nat.Digits.Lemmas
import Mathlib.Data.UInt

/-! Programs that read a buffer front to back: they take a number of bytes, or accept a length field
after comparing it with what is left. What such a program does is bounded by its buffer, a success on
a buffer is a success on every longer one, and so a program that reads back an encoding refuses every
part of it. -/

namespace WatchingZenoh.Readers

variable {ε α γ : Type}

/-- The failures of the buffer itself. -/
class WireError (ε : Type) where
  unexpectedEof : ε
  lengthOverflow : ε

inductive Program (ε α : Type) where
  | done (a : α)
  | fail (e : ε)
  | take (n : ℕ) (next : List UInt8 → Program ε α)
  /-- A length field of `n` entries, each of at least `least` bytes. -/
  | claim (n least : ℕ) (pos : 0 < least) (next : Program ε α)

namespace Program

def bind : Program ε α → (α → Program ε γ) → Program ε γ
  | done a, f => f a
  | fail e, _ => fail e
  | take n next, f => take n fun bytes => (next bytes).bind f
  | claim n least pos next, f => claim n least pos (next.bind f)

instance : Monad (Program ε) where
  pure := done
  bind := bind

@[simp] theorem pure_eq (a : α) : (pure a : Program ε α) = done a := rfl

@[simp] theorem bind_eq (p : Program ε α) (f : α → Program ε γ) : (p >>= f) = p.bind f := rfl

/-- The next `n` bytes. -/
def bytes (n : ℕ) : Program ε (List UInt8) := take n done

def times (p : Program ε α) : ℕ → Program ε (List α)
  | 0 => done []
  | n + 1 => do
    let a ← p
    let as ← p.times n
    return a :: as

variable [WireError ε]

def run : Program ε α → List UInt8 → ℕ → Except ε (α × ℕ)
  | done a, _, pos => .ok (a, pos)
  | fail e, _, _ => .error e
  | take n next, buf, pos =>
    if pos + n ≤ buf.length then (next ((buf.drop pos).take n)).run buf (pos + n)
    else .error WireError.unexpectedEof
  | claim n least _ next, buf, pos =>
    if n * least ≤ buf.length - pos then next.run buf pos else .error WireError.lengthOverflow

/-- The whole buffer, with nothing left over. -/
def decode (p : Program ε α) (trailing : ε) (buf : List UInt8) : Except ε α :=
  match p.run buf 0 with
  | .error e => .error e
  | .ok (a, pos) => if buf.length - pos ≠ 0 then .error trailing else .ok a

/-- What a program does to the buffer, also when it fails in the end. -/
inductive Access where
  | slice (start stop : ℕ)
  | count (n remaining : ℕ)
  deriving DecidableEq, Repr

def accesses : Program ε α → List UInt8 → ℕ → List Access
  | done _, _, _ => []
  | fail _, _, _ => []
  | take n next, buf, pos =>
    if pos + n ≤ buf.length then
      .slice pos (pos + n) :: (next ((buf.drop pos).take n)).accesses buf (pos + n)
    else []
  | claim n least _ next, buf, pos =>
    if n * least ≤ buf.length - pos then
      .count n (buf.length - pos) :: next.accesses buf pos
    else []

def Access.Within (buf : List UInt8) : Access → Prop
  | slice start stop => start ≤ stop ∧ stop ≤ buf.length
  | count n remaining => n ≤ remaining ∧ remaining ≤ buf.length

omit [WireError ε] in
theorem accesses_within (p : Program ε α) (buf : List UInt8) (pos : ℕ) :
    ∀ access ∈ p.accesses buf pos, access.Within buf := by
  induction p generalizing pos with
  | done => simp [accesses]
  | fail => simp [accesses]
  | take n next ih =>
    rw [accesses]
    split_ifs with hfits
    · rw [List.forall_mem_cons]
      exact ⟨⟨Nat.le_add_right pos n, hfits⟩, ih _ _⟩
    · simp
  | claim n least hpos next ih =>
    rw [accesses]
    split_ifs with hfits
    · rw [List.forall_mem_cons]
      exact ⟨⟨(Nat.le_mul_of_pos_right n hpos).trans hfits, Nat.sub_le _ _⟩, ih _⟩
    · simp

theorem run_bind (p : Program ε α) (f : α → Program ε γ) (buf : List UInt8) (pos : ℕ) :
    (p.bind f).run buf pos = match p.run buf pos with
      | .error e => .error e
      | .ok (a, pos) => (f a).run buf pos := by
  induction p generalizing pos with
  | done => rfl
  | fail => rfl
  | take n next ih =>
    by_cases hfits : pos + n ≤ buf.length
    · simp only [bind, run, if_pos hfits, ih]
    · simp only [bind, run, if_neg hfits]
  | claim n least hpos next ih =>
    by_cases hfits : n * least ≤ buf.length - pos
    · simp only [bind, run, if_pos hfits, ih]
    · simp only [bind, run, if_neg hfits]

theorem run_append {p : Program ε α} {buf : List UInt8} {pos : ℕ} {a : α} {stop : ℕ}
    (h : p.run buf pos = .ok (a, stop)) (more : List UInt8) :
    p.run (buf ++ more) pos = .ok (a, stop) := by
  induction p generalizing pos with
  | done => exact h
  | fail => simp [run] at h
  | take n next ih =>
    rw [run] at h ⊢
    split_ifs at h with hfits
    have hslice : ((buf ++ more).drop pos).take n = (buf.drop pos).take n := by
      rw [List.drop_append_of_le_length (by omega), List.take_append_of_le_length]
      rw [List.length_drop]
      omega
    rw [if_pos (by rw [List.length_append]; omega), hslice]
    exact ih _ h
  | claim n least hpos next ih =>
    rw [run] at h ⊢
    split_ifs at h with hfits
    rw [if_pos (by rw [List.length_append]; omega)]
    exact ih h

theorem run_le_length {p : Program ε α} {buf : List UInt8} {pos : ℕ} {a : α} {stop : ℕ}
    (h : p.run buf pos = .ok (a, stop)) (hpos : pos ≤ buf.length) : stop ≤ buf.length := by
  induction p generalizing pos with
  | done =>
    simp only [run, Except.ok.injEq, Prod.mk.injEq] at h
    exact h.2 ▸ hpos
  | fail => simp [run] at h
  | take n next ih =>
    rw [run] at h
    split_ifs at h with hfits
    exact ih _ h hfits
  | claim n least _ next ih =>
    rw [run] at h
    split_ifs at h
    exact ih h hpos

/-- The program reads exactly these bytes, wherever they stand, and gives the value. -/
def Decodes (p : Program ε α) (encoding : List UInt8) (a : α) : Prop :=
  ∀ front rest, p.run (front ++ (encoding ++ rest)) front.length =
    .ok (a, front.length + encoding.length)

theorem decodes_done (a : α) : (done a : Program ε α).Decodes [] a := fun _ _ => rfl

theorem Decodes.bind {p : Program ε α} {f : α → Program ε γ} {first second : List UInt8} {a : α}
    {b : γ} (hp : p.Decodes first a) (hf : (f a).Decodes second b) :
    (p.bind f).Decodes (first ++ second) b := by
  intro front rest
  have hsecond := hf (front ++ first) rest
  rw [run_bind, List.append_assoc, hp front (second ++ rest)]
  simp only [List.append_assoc, List.length_append] at hsecond ⊢
  rw [hsecond, Nat.add_assoc]

theorem Decodes.map {p : Program ε α} {encoding : List UInt8} {a : α} (h : p.Decodes encoding a)
    (f : α → γ) : (p.bind fun a => done (f a)).Decodes encoding (f a) := by
  have hmap := @Decodes.bind _ _ _ _ p (fun a => done (f a)) _ _ _ _ h (decodes_done (f a))
  rwa [List.append_nil] at hmap

theorem decodes_bytes {encoding : List UInt8} {n : ℕ} (h : encoding.length = n) :
    (bytes n : Program ε (List UInt8)).Decodes encoding encoding := by
  intro front rest
  rw [bytes, run, if_pos (by simp [h]), run, ← h]
  simp

theorem Decodes.claim {p : Program ε α} {encoding : List UInt8} {a : α} {n least : ℕ}
    (hp : p.Decodes encoding a) (hpos : 0 < least) (h : n * least ≤ encoding.length) :
    (Program.claim n least hpos p).Decodes encoding a := by
  intro front rest
  rw [run, if_pos, hp front rest]
  simp only [List.length_append]
  omega

theorem Decodes.times {p : Program ε α} {encode : γ → List UInt8} {value : γ → α} {items : List γ}
    (h : ∀ c ∈ items, p.Decodes (encode c) (value c)) :
    (p.times items.length).Decodes (items.flatMap encode) (items.map value) := by
  induction items with
  | nil => exact decodes_done []
  | cons c items ih =>
    have htail := ih fun d hd => h d (by simp [hd])
    exact (h c (by simp)).bind (htail.map (value c :: ·))

theorem Decodes.exact {p : Program ε α} {encoding : List UInt8} {a : α} (h : p.Decodes encoding a)
    (trailing : ε) :
    p.decode trailing encoding = .ok a ∧
      (∀ part, part <+: encoding → part ≠ encoding → ∃ e, p.decode trailing part = .error e) ∧
      ∀ extra, extra ≠ [] → p.decode trailing (encoding ++ extra) = .error trailing := by
  have hrun : ∀ rest, p.run (encoding ++ rest) 0 = .ok (a, encoding.length) := by
    intro rest
    simpa using h [] rest
  refine ⟨?_, ?_, ?_⟩
  · have hwhole := hrun []
    rw [List.append_nil] at hwhole
    simp [decode, hwhole]
  · rintro part ⟨more, rfl⟩ hne
    rcases hpart : p.run part 0 with e | ⟨b, stop⟩
    · exact ⟨e, by simp [decode, hpart]⟩
    · -- the part would be read up to its end, and then the whole only that far
      have hlonger := run_append hpart more
      have hwhole := hrun []
      rw [List.append_nil, hlonger, Except.ok.injEq, Prod.mk.injEq, List.length_append] at hwhole
      have hmore : more ≠ [] := by
        rintro rfl
        simp at hne
      have hlen := List.length_pos_iff.mpr hmore
      have hstop := run_le_length hpart (Nat.zero_le _)
      omega
  · intro extra hextra
    have hlen := List.length_pos_iff.mpr hextra
    rw [decode, hrun extra]
    simp only [List.length_append]
    rw [if_pos (by omega)]

end Program

end WatchingZenoh.Readers
