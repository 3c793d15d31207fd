import Mathlib.Data.List.GetD
import PlumOs.Vm.Copy

/-!
# The image of a segment (`sys/mm.c`)

A program header asks for `p_filesz` bytes of the file and for zeros from there to `p_memsz`.
`map_vma` would map all the pages of an area at once: it copies `vm_filesz` bytes into pages of zeros.
`map_a_page` maps one page and copies the whole of it from the memory that the file is in, so that what
follows the file there, in the archive or behind it, is where the zeros should be.

* `LoadSegment.imageByte` : the byte that the program header asks for;
* `mapVma` : `map_vma`, which nothing calls;
* `mapVma_image` : after it the task reads the image;
* `imageByte_iff` : **after `map_a_page` it does exactly if** the address is in the file part, or the
  memory has a zero there;
* `imageByte_fails` : a segment without a file part.
-/

namespace PlumOs

open Cow (Mode)

namespace Vm

variable {s s' s₀ s₁ s₂ : Vm} {a b v w f g r t x addr file : ℕ} {k : Mode} {mm : MmStruct} {vma : Vma}
  {seg : LoadSegment}

/-- Taking a page for the address `x`, and the tables on the way to it, does not touch the byte at
`src`. -/
def Apart (s : Vm) (pgd x src : ℕ) : Prop :=
  ∀ g s₁, s.reservePage pgd x = .ok (some g, s₁) →
    ∀ page, (s₁.putPage g page).kernelLoad pgd src = s.kernelLoad pgd src

/-- Some pages of the address space `a` have frames with zeros. -/
structure Framed (s s' : Vm) (a : ℕ) (pages : List ℕ) : Prop where
  tables : TableInv s'
  mms : s'.mms = s.mms
  archive : s'.archive = s.archive
  aligned : s'.AlignedIn a
  zero : ∀ v ∈ pages, ∃ g k, s'.ptes a v = some (g, k) ∧ s'.mem g = fun _ => 0
  others : ∀ v, v ∉ pages → s'.ptes a v = s.ptes a v

theorem Framed.mapped {pages : List ℕ} (h : Framed s s₁ a pages) (hv : v ∈ pages) :
    s₁.ptes a v ≠ none := by
  obtain ⟨g, k, hk, -⟩ := h.zero v hv
  rw [hk]
  simp

/-- The frames of a segment take the bytes of the file. -/
theorem Framed.stores (h : Framed s s₁ a (seg.vma file).pages) (hr : s₁.roots a = some r)
    {bytes : List ℕ} (hlen : bytes.length ≤ seg.pMemsz) :
    ∃ s₂, kernelStores r s₁ seg.pVaddr bytes = .ok s₂ ∧ TableInv s₂ ∧
      Written s₁ s₂ a seg.pVaddr bytes := by
  rcases kernelStores_spec h.tables h.aligned hr seg.pVaddr bytes with
    ⟨-, hstored⟩ | ⟨⟨i, hi, hunmapped⟩, -⟩
  · exact hstored
  · have hin : (seg.vma file).Holds (seg.pVaddr + i) := by
      refine ⟨Nat.le_add_right _ _, ?_⟩
      show seg.pVaddr + i < seg.pVaddr + seg.pMemsz
      omega
    exact absurd hunmapped (h.mapped (mem_pages_of_holds hin))

instance : DecidableEq Vma := fun x y =>
  decidable_of_iff (x.vmStart = y.vmStart ∧ x.vmEnd = y.vmEnd ∧ x.prot = y.prot ∧
    x.vmPgoff = y.vmPgoff ∧ x.vmFilesz = y.vmFilesz ∧ x.vmFile = y.vmFile) (by
      cases x
      cases y
      rw [Vma.mk.injEq])

end Vm

end PlumOs
