import AlxBackend.Python.Basic
import AlxBackend.Python.TrueDiv
import AlxBackend.Pagination.IndexRange
import AlxBackend.Pagination.GetPage
import AlxBackend.Pagination.GetHyper
import AlxBackend.Pagination.HyperClient
import AlxBackend.Pagination.DelPagination
import AlxBackend.Pagination.DelRun
import AlxBackend.Caching.BasicCache
import AlxBackend.Caching.FIFOCache
import AlxBackend.Caching.FIFOReference
import AlxBackend.Caching.FIFORuns
