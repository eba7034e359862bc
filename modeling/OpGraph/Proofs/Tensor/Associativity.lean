import OpGraph.Proofs.Tensor.Combination

/-!
# Combining is associative

`Tensor.zipBroadcast_assoc`: if a function is associative, three tensors combine to the same tensor from
the left and from the right, or neither way is possible.  It lets the constants of two products be merged
before the product is taken.

Shapes can be combined from either side (`Shape.Stretch.reassoc_right`, `Shape.Stretch.reassoc_left`), and
the shape of the first combination is addressable if the final one is.  The element of the first
combination that takes part in an element of the final one comes from the trailing parts of the final
index (`Tensor.repeated_of_zipBroadcast`), since a trailing part of a trailing part is a trailing part.
-/

namespace OpGraph

theorem Index.fromEnd_ext {i j : Index} (hl : i.length = j.length)
    (h : ∀ k, i.fromEnd k = j.fromEnd k) : i = j := by
  rw [← List.forall₂_eq_eq_eq]
  exact (forall₂_iff_fromEnd rfl).2 ⟨hl, h⟩

namespace Shape

variable {s r t : Shape} {idx i j : Index}

theorem Trailing.unique (h : s.Trailing idx i) (h' : s.Trailing idx j) : i = j :=
  Index.fromEnd_ext (h.length_eq.trans h'.length_eq.symm) fun k => (h.axis k).trans (h'.axis k).symm

/-- A trailing part of a trailing part is a trailing part. -/
theorem Trailing.trans (hs : s.ExpandsTo r) (h : r.Trailing idx i) (h' : s.Trailing i j) :
    s.Trailing idx j := by
  refine ⟨h'.length_eq, fun k => ?_⟩
  rw [h'.axis, h.axis]
  split
  next => rfl
  next hone =>
    -- an axis that is longer than one is an axis of the larger shape
    rw [(hs.axis k).resolve_right hone] at hone
    rw [if_neg hone]

/-- An index that lies in a shape is a trailing part of itself. -/
theorem project_of_inBounds (hidx : s.InBounds idx) : s.project idx = idx := by
  have hself : s.ExpandsTo s := ⟨Nat.le_refl _, fun k => Or.inl rfl⟩
  refine (hself.trailing_project hidx).unique ⟨(inBounds_iff.1 hidx).1.symm, fun k => ?_⟩
  have hlt := (inBounds_iff.1 hidx).2 k
  split
  next hone => omega
  next => rfl

theorem project_project (hs : s.ExpandsTo r) (hr : r.ExpandsTo t) (hidx : t.InBounds idx) :
    s.project (r.project idx) = s.project idx := by
  have hi := hr.trailing_project hidx
  have hj := hs.trailing_project (hi.inBounds hidx hr)
  exact (hi.trans hs hj).unique ((hs.trans hr).trailing_project hidx)

end Shape

namespace Tensor

theorem ofIndex_congr {type : ElementType} {s : Shape} {hs : s.addressable} {g h : Index → Float}
    (hgh : ∀ idx, s.InBounds idx → g idx = h idx) : ofIndex type s g hs = ofIndex type s h hs := by
  have hvalues : (fun k : Fin s.numel => type.coerce (g (s.unravel k))) =
      fun k : Fin s.numel => type.coerce (h (s.unravel k)) := by
    funext k
    rw [hgh _ (Shape.inBounds_unravel k.isLt)]
  simp only [ofIndex, hvalues]

variable {a b c t u : Tensor} {type : ElementType} {f : Float → Float → Float}

/-- The element of a combination that takes part in a further one. -/
theorem repeated_of_zipBroadcast (h : a.zipBroadcast b type f = some u) {s : Shape} {idx : Index}
    (hu : u.shape.ExpandsTo s) (hidx : s.InBounds idx) :
    u.repeated idx = type.coerce (f (a.repeated idx) (b.repeated idx)) := by
  obtain ⟨r, hsmall, hr, rfl⟩ := zipBroadcast_eq_some_iff.1 h
  have hin : r.InBounds (r.project idx) := (hu.trailing_project hidx).inBounds hidx hu
  have hget : (ofIndex type r (fun idx => f (a.repeated idx) (b.repeated idx)) hsmall).repeated idx =
      type.coerce (f (a.repeated (r.project idx)) (b.repeated (r.project idx))) := get_ofIndex hin
  rw [hget, repeated, repeated, Shape.project_project hr.left hu hidx,
    Shape.project_project hr.right hu hidx, repeated, repeated]

/-- A combination and then another one, at once. -/
theorem zipBroadcast_left_eq_some_iff {f h : Float → Float → Float} :
    ((a.zipBroadcast b .f64 f).bind fun u => u.zipBroadcast c .f64 h) = some t ↔
      ∃ (r s : Shape) (hsmall : s.addressable), Shape.Stretch a.shape b.shape r ∧
        Shape.Stretch r c.shape s ∧ t = ofIndex .f64 s
          (fun idx => h (f (a.repeated idx) (b.repeated idx)) (c.repeated idx)) hsmall := by
  rw [Option.bind_eq_some_iff]
  constructor
  · rintro ⟨u, hu, ht⟩
    obtain ⟨r, hsmall₁, hr, rfl⟩ := zipBroadcast_eq_some_iff.1 hu
    obtain ⟨s, hsmall, hs, rfl⟩ := zipBroadcast_eq_some_iff.1 ht
    refine ⟨r, s, hsmall, hr, hs, ofIndex_congr fun idx hidx => ?_⟩
    rw [repeated_of_zipBroadcast hu hs.left hidx, ElementType.coerce_f64]
  · rintro ⟨r, s, hsmall, hr, hs, rfl⟩
    have hcombined := Shape.broadcast_eq_some_iff_stretch.2
      ⟨hr, Shape.addressable_of_expandsTo hsmall hs.left⟩
    obtain ⟨u, hu, rfl⟩ := exists_zipBroadcast hcombined .f64 f
    refine ⟨u, hu, zipBroadcast_eq_some_iff.2 ⟨s, hsmall, hs, ofIndex_congr fun idx hidx => ?_⟩⟩
    rw [repeated_of_zipBroadcast hu hs.left hidx, ElementType.coerce_f64]

theorem zipBroadcast_swap (a b : Tensor) (type : ElementType) (f : Float → Float → Float) :
    a.zipBroadcast b type f = b.zipBroadcast a type fun y x => f x y := by
  refine Option.ext fun c => ?_
  rw [zipBroadcast_eq_some_iff, zipBroadcast_eq_some_iff]
  exact exists_congr fun s => exists_congr fun _ => and_congr_left fun _ => ⟨.comm, .comm⟩

/-- The same with the first combination on the right. -/
theorem zipBroadcast_right_eq_some_iff :
    ((b.zipBroadcast c .f64 f).bind fun u => a.zipBroadcast u .f64 f) = some t ↔
      ∃ (r s : Shape) (hsmall : s.addressable), Shape.Stretch b.shape c.shape r ∧
        Shape.Stretch a.shape r s ∧ t = ofIndex .f64 s
          (fun idx => f (a.repeated idx) (f (b.repeated idx) (c.repeated idx))) hsmall := by
  simp only [zipBroadcast_swap a _ .f64 f]
  rw [zipBroadcast_left_eq_some_iff]
  exact exists_congr fun r => exists_congr fun s => exists_congr fun _ => and_congr_right fun _ =>
    and_congr_left fun _ => ⟨.comm, .comm⟩

/-- **Combining with an associative function is associative.** -/
theorem zipBroadcast_assoc (hf : ∀ p q r, f (f p q) r = f p (f q r)) (x c₁ c₂ : Tensor) :
    ((x.zipBroadcast c₁ .f64 f).bind fun u => u.zipBroadcast c₂ .f64 f) =
      (c₁.zipBroadcast c₂ .f64 f).bind fun u => x.zipBroadcast u .f64 f := by
  refine Option.ext fun t => ?_
  rw [zipBroadcast_left_eq_some_iff, zipBroadcast_right_eq_some_iff]
  constructor
  · rintro ⟨r, s, hsmall, hr, hs, rfl⟩
    obtain ⟨v, hv, hs⟩ := hr.reassoc_right hs
    exact ⟨v, s, hsmall, hv, hs, ofIndex_congr fun idx _ => hf ..⟩
  · rintro ⟨r, s, hsmall, hr, hs, rfl⟩
    obtain ⟨v, hv, hs⟩ := hr.reassoc_left hs
    exact ⟨v, s, hsmall, hv, hs, ofIndex_congr fun idx _ => (hf ..).symm⟩

/-- A column, a row and a table combine from either side. -/
theorem zipBroadcast_assoc_column :
    let first : Float → Float → Float := fun p _ => p
    let x : Tensor := .ofList .f64 [2, 1] [1, 2] rfl rfl
    let row : Tensor := .ofList .f64 [3] [10, 20, 30] rfl rfl
    let table : Tensor := .ofList .f64 [2, 3] [3, 4, 5, 6, 7, 8] rfl rfl
    (∀ p q r, first (first p q) r = first p (first q r)) ∧
      ((x.zipBroadcast row .f64 first).bind fun u => u.zipBroadcast table .f64 first).isSome ∧
      ((x.zipBroadcast row .f64 first).bind fun u => u.zipBroadcast table .f64 first) =
        (row.zipBroadcast table .f64 first).bind fun u => x.zipBroadcast u .f64 first := by
  intro first x row table
  have hfirst : ∀ p q r, first (first p q) r = first p (first q r) := fun _ _ _ => rfl
  exact ⟨hfirst, rfl, zipBroadcast_assoc hfirst x row table⟩

end Tensor

end OpGraph
