import LuaApr.Apr
import LuaApr.Objects
import LuaApr.DirRead
import LuaApr.FileSeek
import LuaApr.AttrsSet
import LuaApr.Wrappers
import LuaApr.RemoveRecursive.Machine
import LuaApr.RemoveRecursive.Steps
import LuaApr.RemoveRecursive.FailFast
import LuaApr.RemoveRecursive.Resources
import LuaApr.RemoveRecursive.Counter
import LuaApr.RemoveRecursive.Classification
import LuaApr.RemoveRecursive.FileSystem
import LuaApr.RemoveRecursive.Safety
import LuaApr.RemoveRecursive.World
import LuaApr.RemoveRecursive.Termination
import LuaApr.RemoveRecursive.Tree
import LuaApr.RemoveRecursive.Blocks
import LuaApr.RemoveRecursive.Correctness
import LuaApr.RemoveRecursive.Success
