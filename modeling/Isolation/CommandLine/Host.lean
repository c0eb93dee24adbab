import Isolation.CommandLine.FileTree
import Isolation.Timestamp

/-!
# What Surrounds the Program

The program reads and writes files, asks for the time, and needs a number to start chance with. These are
the operations of a `Host`. Everything the program does is written against them, so that it can run on
the machine and as well on a `FileTree`, which is a plain value and can be reasoned about.

Creating a file and filling it are two operations, since they can fail for different reasons: a path that
leads nowhere, and a device that takes nothing.

## Main definitions

* `Host`: The operations.
-/

namespace Isolation.CommandLine

/-- What surrounds the program. -/
class Host (m : Type → Type) where
  read : String → m (Except FileFault (List UInt8))
  create : String → m (Except FileFault Unit)
  append : String → List UInt8 → m (Except FileFault Unit)
  /-- Makes a directory, and those that lead to it; it is no fault if they exist. -/
  createDirectories : String → m (Except FileFault Unit)
  now : m Timestamp
  seed : m UInt64

/-- A change of the tree, which stays as it is when the change fails. -/
def FileTree.change (operation : FileTree → Except FileFault FileTree) :
    StateM FileTree (Except FileFault Unit) := fun tree =>
  match operation tree with
  | .ok tree => (.ok (), tree)
  | .error fault => (.error fault, tree)

/-- A tree as a host. Time stands still, and chance always starts with the same number. -/
instance : Host (StateM FileTree) where
  read path := fun tree => (tree.read path, tree)
  create path := FileTree.change fun tree => tree.create path
  append path bytes := FileTree.change fun tree => tree.append path bytes
  createDirectories path := FileTree.change fun tree => tree.createDirectories path
  now := pure ⟨0, 0, 0⟩
  seed := pure 0

end Isolation.CommandLine
