import Yaboot.Base.PowerPC

/-! `memmove` of `lib/string.S`, one function for each label. A local label carries
its number; what falls through to the next label calls it. -/
namespace Yaboot.Lib
open PowerPC

/-- The body of the loop at 4. -/
def forwardByte (s : State) : State := s |> lbzu .r0 1 .r4 |> stbu .r0 1 .r6

def memcpy3 (s : State) : State :=
  let s := s |> cmpwi .r5 0
  if s.cr0 = .eq then s
  else s |> mtctr .r5 |> addi .r4 .r4 3 |> addi .r6 .r6 3 |> bdnz forwardByte

def memcpy2 (s : State) : State :=
  let s := s |> cmplwi .r5 4
  if s.cr0 = .lt then memcpy3 s
  else s |> lwzu .r0 4 .r4 |> addi .r5 .r5 (-4) |> stwu .r0 4 .r6 |> memcpy3

/-- The body of the loop at 1. -/
def forwardWords (s : State) : State :=
  s |> lwz .r7 4 .r4 |> lwzu .r8 8 .r4 |> stw .r7 4 .r6 |> stwu .r8 8 .r6

def memcpy1 (s : State) : State := s |> bdnz forwardWords |> andiDot .r5 .r5 7 |> memcpy2

/-- The body of the loop at 6. -/
def forwardAlign (s : State) : State :=
  s |> lbz .r7 4 .r4 |> addi .r4 .r4 1 |> stb .r7 4 .r6 |> addi .r6 .r6 1

def memcpy5 (s : State) : State :=
  let s := s |> subfic .r0 .r0 4 |> mtctr .r0 |> bdnz forwardAlign |> subf .r5 .r0 .r5 |>
    rlwinmDot .r7 .r5 (32 - 3) 3 31
  if s.cr0 = .eq then memcpy2 s else s |> mtctr .r7 |> memcpy1

def memcpy (s : State) : State :=
  let s := s |> rlwinmDot .r7 .r5 (32 - 3) 3 31 |> addi .r6 .r3 (-4) |> addi .r4 .r4 (-4)
  if s.cr0 = .eq then memcpy2 s
  else
    let s := s |> andiDot .r0 .r6 3 |> mtctr .r7
    if s.cr0 ≠ .eq then memcpy5 s else memcpy1 s

/-- The body of the loop at 4. -/
def backwardsByte (s : State) : State := s |> lbzu .r0 (-1) .r4 |> stbu .r0 (-1) .r6

def backwardsMemcpy3 (s : State) : State :=
  let s := s |> cmpwi .r5 0
  if s.cr0 = .eq then s else s |> mtctr .r5 |> bdnz backwardsByte

def backwardsMemcpy2 (s : State) : State :=
  let s := s |> cmplwi .r5 4
  if s.cr0 = .lt then backwardsMemcpy3 s
  else s |> lwzu .r0 (-4) .r4 |> subi .r5 .r5 4 |> stwu .r0 (-4) .r6 |> backwardsMemcpy3

/-- The body of the loop at 1. -/
def backwardsWords (s : State) : State :=
  s |> lwz .r7 (-4) .r4 |> lwzu .r8 (-8) .r4 |> stw .r7 (-4) .r6 |> stwu .r8 (-8) .r6

def backwardsMemcpy1 (s : State) : State :=
  s |> bdnz backwardsWords |> andiDot .r5 .r5 7 |> backwardsMemcpy2

/-- The body of the loop at 6. -/
def backwardsAlign (s : State) : State := s |> lbzu .r7 (-1) .r4 |> stbu .r7 (-1) .r6

def backwardsMemcpy5 (s : State) : State :=
  let s := s |> mtctr .r0 |> bdnz backwardsAlign |> subf .r5 .r0 .r5 |>
    rlwinmDot .r7 .r5 (32 - 3) 3 31
  if s.cr0 = .eq then backwardsMemcpy2 s else s |> mtctr .r7 |> backwardsMemcpy1

def backwardsMemcpy (s : State) : State :=
  let s := s |> rlwinmDot .r7 .r5 (32 - 3) 3 31 |> add .r6 .r3 .r5 |> add .r4 .r4 .r5
  if s.cr0 = .eq then backwardsMemcpy2 s
  else
    let s := s |> andiDot .r0 .r6 3 |> mtctr .r7
    if s.cr0 ≠ .eq then backwardsMemcpy5 s else backwardsMemcpy1 s

def memmove (s : State) : State :=
  let s := s |> cmplw .r3 .r4
  if s.cr0 = .gt then backwardsMemcpy s else memcpy s

end Yaboot.Lib
