import DoNewsStd.Container.Registry
import DoNewsStd.Container.Dispatch
import DoNewsStd.Container.Shutdown
import DoNewsStd.Container.ShutdownStatements
import DoNewsStd.Key.Manager
import DoNewsStd.Key.SliceStore
import DoNewsStd.Key.Aliasing
import DoNewsStd.Key.Ownership
import DoNewsStd.Key.Refinement
import DoNewsStd.Provider.Clients
