import Mathlib.Data.Int.Notation
import Mathlib.Data.Nat.Notation

/-! # Multipath routes

A route with several next hops spreads its flows over them by weight: each next hop has a
power, used up one by one and given back when all are used up.
-/
namespace Multipath

/-- `fib_nh`, its device given by the `ifindex`. -/
structure FibNh where
  nhDev : UInt32
  nhFlags : UInt32
  nhWeight : ℤ
  nhPower : ℤ
  deriving DecidableEq

structure FibInfo where
  fibPower : ℤ
  fibNh : List FibNh
  deriving DecidableEq

/-- `fib_result`: the route, the table of its rule and the next hop taken. -/
structure FibResult where
  fi : FibInfo
  table : UInt8
  nhSel : ℕ
  deriving DecidableEq

def rtnhFDead : UInt32 := 1

def FibNh.Dead (nh : FibNh) : Prop := nh.nhFlags &&& rtnhFDead ≠ 0

instance (nh : FibNh) : Decidable nh.Dead := inferInstanceAs (Decidable (_ ≠ _))

def FibInfo.fibNhs (fi : FibInfo) : ℕ := fi.fibNh.length

def FibInfo.devices (fi : FibInfo) : List UInt32 := fi.fibNh.map FibNh.nhDev

/-- `FIB_RES_DEV`. -/
def FibResult.dev (res : FibResult) : Option UInt32 := res.fi.devices[res.nhSel]?

def restorePowers (nhs : List FibNh) : List FibNh :=
  nhs.map fun nh => if nh.Dead then nh else { nh with nhPower := nh.nhWeight }

def totalWeight (nhs : List FibNh) : ℤ :=
  nhs.foldl (fun power nh => if nh.Dead then power else power + nh.nhWeight) 0

/-- The loop that takes the next hop, with its number. -/
def takeHop : ℤ → List FibNh → Option (ℕ × List FibNh)
  | _, [] => none
  | w, nh :: nhs =>
    if ¬ nh.Dead ∧ nh.nhPower ≠ 0 then
      if w - nh.nhPower ≤ 0 then some (0, { nh with nhPower := nh.nhPower - 1 } :: nhs)
      else (takeHop (w - nh.nhPower) nhs).map fun taken => (taken.1 + 1, nh :: taken.2)
    else (takeHop w nhs).map fun taken => (taken.1 + 1, nh :: taken.2)

/-- The end of `fib_select_multipath`, for a positive `fib_power`. -/
def selectByPower (jiffies : UInt64) (fi : FibInfo) : FibInfo × ℕ :=
  match takeHop ((jiffies.toNat : ℤ) % fi.fibPower) fi.fibNh with
  | some (nhsel, nhs) => (⟨fi.fibPower - 1, nhs⟩, nhsel)
  | none => (fi, 0)

def fibSelectMultipath (jiffies : UInt64) (fi : FibInfo) : FibInfo × ℕ :=
  if fi.fibPower ≤ 0 then
    if totalWeight fi.fibNh ≤ 0 then (⟨totalWeight fi.fibNh, restorePowers fi.fibNh⟩, 0)
    else selectByPower jiffies ⟨totalWeight fi.fibNh, restorePowers fi.fibNh⟩
  else selectByPower jiffies fi

theorem takeHop_spec {w : ℤ} {nhs nhs' : List FibNh} {nhsel : ℕ}
    (h : takeHop w nhs = some (nhsel, nhs')) :
    nhsel < nhs.length ∧ nhs'.map FibNh.nhDev = nhs.map FibNh.nhDev := by
  induction nhs generalizing w nhs' nhsel with
  | nil => cases h
  | cons nh nhs ih =>
    have hlater : ∀ w', (takeHop w' nhs).map (fun taken => (taken.1 + 1, nh :: taken.2)) =
        some (nhsel, nhs') → nhsel < (nh :: nhs).length ∧
          nhs'.map FibNh.nhDev = (nh :: nhs).map FibNh.nhDev := by
      intro w' heq
      obtain ⟨taken, htaken, heq⟩ := Option.map_eq_some_iff.mp heq
      obtain ⟨hlt, hdev⟩ := ih htaken
      cases heq
      exact ⟨Nat.succ_lt_succ hlt, by rw [List.map_cons, List.map_cons, hdev]⟩
    rw [takeHop] at h
    split at h
    · split at h
      · cases h
        exact ⟨Nat.succ_pos _, rfl⟩
      · exact hlater _ h
    · exact hlater _ h

theorem devices_restorePowers (power : ℤ) (nhs : List FibNh) :
    (FibInfo.mk power (restorePowers nhs)).devices = nhs.map FibNh.nhDev := by
  rw [FibInfo.devices, restorePowers, List.map_map]
  apply List.map_congr_left
  intro nh _
  dsimp only [Function.comp_apply]
  split <;> rfl

theorem selectByPower_spec (jiffies : UInt64) {fi : FibInfo} (h : 0 < fi.fibNhs) :
    (selectByPower jiffies fi).2 < fi.fibNhs ∧
      (selectByPower jiffies fi).1.devices = fi.devices := by
  rw [selectByPower]
  split
  · next htaken => exact takeHop_spec htaken
  · exact ⟨h, rfl⟩

/-- The choice is one of the next hops, and their devices stay as they are. -/
theorem fibSelectMultipath_spec (jiffies : UInt64) {fi : FibInfo} (h : 0 < fi.fibNhs) :
    (fibSelectMultipath jiffies fi).2 < fi.fibNhs ∧
      (fibSelectMultipath jiffies fi).1.devices = fi.devices := by
  rw [fibSelectMultipath]
  split
  · have hlen : (FibInfo.mk (totalWeight fi.fibNh) (restorePowers fi.fibNh)).fibNhs = fi.fibNhs :=
      List.length_map _
    split
    · exact ⟨h, devices_restorePowers _ _⟩
    · have hspec := @selectByPower_spec jiffies
        ⟨totalWeight fi.fibNh, restorePowers fi.fibNh⟩ (hlen ▸ h)
      exact ⟨hlen ▸ hspec.1, hspec.2.trans (devices_restorePowers _ _)⟩
  · exact selectByPower_spec jiffies h

theorem dev_eq_some {res : FibResult} (h : res.nhSel < res.fi.fibNhs) :
    ∃ dev ∈ res.fi.devices, res.dev = some dev := by
  have hlen : res.nhSel < res.fi.devices.length := by
    rwa [FibInfo.devices, List.length_map]
  exact ⟨_, List.getElem_mem hlen, List.getElem?_eq_getElem hlen⟩

end Multipath
