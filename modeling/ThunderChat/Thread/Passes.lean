import ThunderChat.CircularBuff.Socket
import ThunderChat.Foundation.Loop

/-!
The passes of a thread over the ring of one client.

A `ThreadReceiver` or a `ThreadWorker` that has dequeued a client calls `FillFromSocket`, and
if that brings bytes, its packet loop. Between two passes the client may be with other
threads; its ring is only touched in a pass.

* `run_cons_iff`: where each fill and each loop ends in one way, so does the run.
-/

namespace ThunderChat.Passes

open CircularBuff

variable {b r : CircularBuff} {chunks : List Chunk} {fills : List (List Chunk)} {len : Nat}

/-- `FillFromSocket` brings these chunks. At least a byte is announced, but more may arrive
while it reads; `errno` may be anything before. -/
def Filled (b : CircularBuff) (chunks : List Chunk) (r : CircularBuff) : Prop :=
  ∃ errno available, (0 < available ∧ available ≤ ((bytesOf chunks).length : Int)) ∧
    0 < (b.putSocket errno available (arriving chunks)).1 ∧
      r = (b.putSocket errno available (arriving chunks)).2

/-- What fits is stored, whatever has been announced of it. -/
theorem filled_iff (hcap : b.bufferSize ≤ BUF_IN_SIZE) (hne : chunks ≠ [])
    (hfits : (bytesOf chunks).length ≤ b.getFreeSize) :
    Filled b chunks r ↔ r = b.store (bytesOf chunks) := by
  have hbytes := bytesOf_ne_nil hne
  have hpos : 0 < ((bytesOf chunks).length : Int) :=
    Int.natCast_pos.mpr (List.length_pos_iff.mpr hbytes)
  have inTime : ¬ Overtaken 0 (chunksOf (arriving chunks)) := by
    rw [chunksOf_arriving]
    refine not_overtaken_of_le ?_
    simp only [getFreeSize] at hfits
    omega
  have hput : ∀ (errno : Nat) (available : Int), 0 < available →
      available ≤ (bytesOf chunks).length → b.putSocket errno available (arriving chunks)
        = (((bytesOf chunks).length : Int), b.store (bytesOf chunks)) := by
    intro errno available hsome hle
    have hreads : b.Reads available := ⟨hsome, hle.trans (Int.ofNat_le.mpr hfits)⟩
    have hstored := putSocket_of_fits hreads (endsAgain_arriving : EndsAgain errno _) inTime
      (by rwa [receivedBytes_arriving]) (by rwa [receivedBytes_arriving])
    rwa [receivedBytes_arriving] at hstored
  constructor
  · rintro ⟨errno, available, ⟨hsome, hle⟩, -, hr⟩
    rw [hr, hput errno available hsome hle]
  · rintro rfl
    refine ⟨0, (bytesOf chunks).length, ⟨hpos, Int.le_refl _⟩, ?_⟩
    rw [hput 0 _ hpos (Int.le_refl _)]
    exact ⟨hpos, rfl⟩

/-- With that room every `Get` is safe. -/
theorem getSafe_of_room (inv : b.Inv) (h : b.useBufferSize + len < b.bufferSize) :
    b.GetSafe len := by
  intro hle
  rw [getUsedSize] at hle
  have htail := inv.tail_lt
  have hwrap := inv.wrap
  omega

variable {σ : Type} {body : σ → Loop.Next σ} {start : CircularBuff → σ} {ring : σ → CircularBuff}
  {s : σ} {loops : List σ}

/-- The passes of a packet loop, and how each of them ends. -/
inductive Run (body : σ → Loop.Next σ) (start : CircularBuff → σ) (ring : σ → CircularBuff) :
    CircularBuff → List (List Chunk) → List σ → Prop where
  | done {b : CircularBuff} : Run body start ring b [] []
  | pass {b r : CircularBuff} {chunks : List Chunk} {fills : List (List Chunk)} {s : σ}
      {loops : List σ} : Filled b chunks r → Loop.Exits body (start r) s →
      Run body start ring (ring s) fills loops →
      Run body start ring b (chunks :: fills) (s :: loops)

theorem run_nil_iff {loops' : List σ} : Run body start ring b [] loops' ↔ loops' = [] := by
  constructor
  · intro h
    cases h
    rfl
  · rintro rfl
    exact .done

/-- A fill and a loop that end in one way, and passes that do. -/
theorem run_cons_iff (hfill : ∀ r', Filled b chunks r' ↔ r' = r)
    (hexits : Loop.Exits body (start r) s)
    (hruns : ∀ loops', Run body start ring (ring s) fills loops' ↔ loops' = loops)
    (loops' : List σ) : Run body start ring b (chunks :: fills) loops' ↔ loops' = s :: loops := by
  constructor
  · intro h
    cases h with
    | pass hfilled hexits' hpasses =>
        cases (hfill _).mp hfilled
        cases Loop.exits_unique hexits' hexits
        cases (hruns _).mp hpasses
        rfl
  · rintro rfl
    exact .pass ((hfill r).mpr rfl) hexits ((hruns loops).mpr rfl)

end ThunderChat.Passes
