/-
Storage that grows.

A row of cells that fills up moves to a larger one. Small storage comes in
graded sizes and larger storage in whole pages; a row that grows takes more
than it needs, so that it does not move with every cell added. How much room a
row has shows where cells behind its end are read or kept.
-/

namespace MirBackend.Storage

/-- The sizes, in cells, of small storage. -/
def grades : List Nat :=
  [1, 2, 3, 4, 6, 8, 10, 12, 14, 16, 18, 20, 22, 24, 26, 28, 30, 32, 36, 40,
   44, 48, 52, 56, 60,
   64, 72, 80, 88, 96, 112, 128, 144, 160, 176, 192, 224, 256, 288, 336, 384,
     400, 432, 512, 608,
   672, 768, 816, 848, 864, 1024, 1184, 1216, 1280, 1360, 1536, 1696, 1792,
     2048, 2304, 2384, 2560,
   2720, 3072, 3408, 3584, 4096]

/-- The storage handed out when `n` cells are asked for: the first grade that is
large enough, and beyond them whole pages of 1024 cells. -/
def graded (n : Nat) : Nat :=
  (grades.find? (n ≤ ·)).getD ((n + 1023) / 1024 * 1024)

/-- One step of growth of larger storage: a quarter and a little more. -/
def widen (n room : Nat) : Nat :=
  if room < n then room + (room + 768) / 4 else room

/-- Storage of `room` cells once `n` are needed: it doubles while it is small,
is widened when it is larger, and goes to what is needed when that is more than
twice as much. -/
def regrown (room n : Nat) : Nat :=
  if n ≤ room then room
  else if 2 * room < n then graded n
  else if room < 256 then graded (2 * room)
  else graded (widen n (widen n (widen n (widen n room))))

end MirBackend.Storage
