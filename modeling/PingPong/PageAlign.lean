import Mathlib.Data.BitVec
import Mathlib.Tactic.Ring

namespace PingPong.PageAlign

variable {len : BitVec 32} {size_align_flag : Int}

def SIZE_ALIGN_NONE : Int := 0

def SIZE_ALIGN_NORMAL : Int := 1

def SIZE_ALIGN_HUGE : Int := 2

/-- The page size that `page_align_size` takes for a flag other than `SIZE_ALIGN_NONE`. -/
def page_size (size_align_flag : Int) : BitVec 32 :=
  if size_align_flag = SIZE_ALIGN_NORMAL then 4096 else 2 * 1024 * 1024

def page_align_size (len : BitVec 32) (size_align_flag : Int) : BitVec 32 :=
  if size_align_flag = SIZE_ALIGN_NONE then len
  else
    let page_size := page_size size_align_flag
    if len % page_size = 0 then len else (len / page_size + 1) * page_size

inductive Prot | PROT_READ | PROT_WRITE
deriving DecidableEq, Repr

inductive MapFlag | MAP_SHARED | MAP_ANONYMOUS | MAP_POPULATE
deriving DecidableEq, Repr

structure Mmap where
  length : BitVec 64
  prot : List Prot
  flags : List MapFlag
  fd : Int
  offset : Int
deriving DecidableEq, Repr

def map_shared_area (len : BitVec 32) (size_align_flag : Int) : Mmap where
  length := (page_align_size len size_align_flag).setWidth 64
  prot := [.PROT_READ, .PROT_WRITE]
  flags := [.MAP_SHARED, .MAP_ANONYMOUS, .MAP_POPULATE]
  fd := -1
  offset := 0

structure Meets (len : BitVec 32) (size_align_flag : Int) : Prop where
  pages : (page_size size_align_flag).toNat ∣ (page_align_size len size_align_flag).toNat
  covers : len.toNat ≤ (page_align_size len size_align_flag).toNat
  tight : (page_align_size len size_align_flag).toNat <
    len.toNat + (page_size size_align_flag).toNat
  mapped : len.toNat ≤ (map_shared_area len size_align_flag).length.toNat

theorem page_size_cases (size_align_flag : Int) :
    (page_size size_align_flag).toNat = 4096 ∨ (page_size size_align_flag).toNat = 2097152 := by
  unfold page_size
  split
  · exact .inl rfl
  · exact .inr rfl

theorem page_size_dvd (size_align_flag : Int) : (page_size size_align_flag).toNat ∣ 2 ^ 32 := by
  obtain h | h := page_size_cases size_align_flag <;> rw [h] <;> decide

theorem page_align_size_toNat (len : BitVec 32) (hf : size_align_flag ≠ SIZE_ALIGN_NONE) :
    (page_align_size len size_align_flag).toNat =
      if (page_size size_align_flag).toNat ∣ len.toNat then len.toNat
      else (len.toNat / (page_size size_align_flag).toNat + 1) *
        (page_size size_align_flag).toNat % 2 ^ 32 := by
  have hdvd : len % page_size size_align_flag = 0 ↔
      (page_size size_align_flag).toNat ∣ len.toNat := by
    rw [← BitVec.toNat_inj, BitVec.toNat_umod, Nat.dvd_iff_mod_eq_zero]
    rfl
  rw [page_align_size, if_neg hf]
  simp only [hdvd]
  split_ifs
  · rfl
  · simp only [BitVec.toNat_mul, BitVec.toNat_add, BitVec.toNat_udiv]
    simp

theorem succ_div_mul_mod {n page size : Nat} (hd : page ∣ size) (hn : n < size)
    (hnot : ¬ page ∣ n) :
    (n / page + 1) * page % size = if n + page ≤ size then (n / page + 1) * page else 0 := by
  obtain ⟨q, rfl⟩ := hd
  have hpage : 0 < page := Nat.pos_of_ne_zero (by rintro rfl; simp at hn)
  have hdiv : n / page < q := Nat.div_lt_of_lt_mul hn
  have hmod : 0 < n % page := Nat.pos_of_ne_zero (mt Nat.dvd_of_mod_eq_zero hnot)
  have hlt : n % page < page := Nat.mod_lt n hpage
  have hsplit : n / page * page + n % page = n := Nat.div_add_mod' n page
  by_cases hlast : n / page + 1 = q
  · have hq : page * q = n / page * page + page := by rw [← hlast]; ring
    rw [hlast, if_neg (by omega), Nat.mul_comm, Nat.mod_self]
  · have hle : (n / page + 2) * page ≤ q * page := Nat.mul_le_mul_right page (by omega)
    have hq : page * q = q * page := Nat.mul_comm page q
    have hnext : (n / page + 2) * page = n / page * page + page + page := by ring
    have hup : (n / page + 1) * page = n / page * page + page := by ring
    rw [if_pos (by omega), Nat.mod_eq_of_lt (by omega)]

theorem map_shared_area_length (len : BitVec 32) (size_align_flag : Int) :
    (map_shared_area len size_align_flag).length.toNat =
      (page_align_size len size_align_flag).toNat :=
  BitVec.toNat_setWidth_of_le (by omega)

theorem map_shared_area_none (len : BitVec 32) :
    (map_shared_area len SIZE_ALIGN_NONE).length.toNat = len.toNat := by
  rw [map_shared_area_length, page_align_size, if_pos rfl]

/-- The length is rounded up to whole pages unless it is in the last page of the type, and
then nothing is left of it. -/
theorem page_align_covers (len : BitVec 32) (hf : size_align_flag ≠ SIZE_ALIGN_NONE) :
    Meets len size_align_flag ↔ len.toNat + (page_size size_align_flag).toNat ≤ 2 ^ 32 := by
  have hlt : len.toNat < 2 ^ 32 := len.isLt
  have hdvd := page_size_dvd size_align_flag
  have hpos : 0 < (page_size size_align_flag).toNat := Nat.pos_of_dvd_of_pos hdvd (by decide)
  have hlen := map_shared_area_length len size_align_flag
  have hround := page_align_size_toNat len hf
  by_cases hpages : (page_size size_align_flag).toNat ∣ len.toNat
  · rw [if_pos hpages] at hround
    have hleft : (page_size size_align_flag).toNat ≤ 2 ^ 32 - len.toNat :=
      Nat.le_of_dvd (Nat.sub_pos_of_lt hlt) (Nat.dvd_sub hdvd hpages)
    have hfit : len.toNat + (page_size size_align_flag).toNat ≤ 2 ^ 32 := by omega
    refine ⟨fun _ => hfit, fun _ => ⟨hround ▸ hpages, hround.ge, by omega, by omega⟩⟩
  · rw [if_neg hpages, succ_div_mul_mod hdvd hlt hpages] at hround
    have hne : len.toNat ≠ 0 := fun h => hpages (h ▸ dvd_zero _)
    split_ifs at hround with hfit
    · have hmod := Nat.mod_lt len.toNat hpos
      have hsplit := Nat.div_add_mod' len.toNat (page_size size_align_flag).toNat
      rw [Nat.add_one_mul] at hround
      refine ⟨fun _ => hfit, fun _ => ⟨?_, by omega, ?_, by omega⟩⟩
      · rw [hround]
        exact Nat.dvd_add (Nat.dvd_mul_left _ _) dvd_rfl
      · have hmod0 : len.toNat % (page_size size_align_flag).toNat ≠ 0 :=
          mt Nat.dvd_of_mod_eq_zero hpages
        omega
    · exact ⟨fun h => absurd (hround ▸ h.covers) (by omega), fun h => absurd h hfit⟩

theorem page_align_covers_edge : Meets 4294963200 SIZE_ALIGN_NORMAL ↔
    (4294963200 : BitVec 32).toNat + (page_size SIZE_ALIGN_NORMAL).toNat ≤ 2 ^ 32 :=
  page_align_covers 4294963200 (by decide)

/-- The largest length is rounded up to 0, and nothing is mapped for it. -/
theorem page_align_wraps : page_align_size 4294967295 SIZE_ALIGN_HUGE = 0 ∧
    (map_shared_area 4294967295 SIZE_ALIGN_HUGE).length = 0 ∧
    ¬ ∀ len size_align_flag, size_align_flag ≠ SIZE_ALIGN_NONE → Meets len size_align_flag := by
  have hzero : page_align_size 4294967295 SIZE_ALIGN_HUGE = 0 := by decide
  refine ⟨hzero, by decide, fun h => ?_⟩
  have hcovers := (h 4294967295 SIZE_ALIGN_HUGE (by decide)).covers
  rw [hzero] at hcovers
  exact absurd hcovers (by decide)

end PingPong.PageAlign
